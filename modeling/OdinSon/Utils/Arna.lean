import Mathlib.Logic.Function.Basic
import Mathlib.Data.List.Basic
import OdinSon.Lib.RecordLayout

/-!
# Arenas

The allocator of `utils/arna/arna.odin`: blocks are taken from a range of reserved memory in
ascending order, and memory is committed in large steps.  The last block can be freed and resized in
place, and a position that was saved can be restored.  Places are counted from the start of the
range, which is at a page boundary: so is what `init` reserves, and what `bulk_init` does if the sizes
are multiples of a page.

## Main definitions

* `Allocator`, with `alloc`, `free`, `resize` and `reset` of the source.
* `State` : the arena with the blocks that are live, and what their owners have written to them.
* `State.Sound` : the blocks are disjoint, aligned and committed, and hold what was written.
* `State.FitsOp` : the requests that the arena serves correctly.

## Main results

* `State.Inv.step` : such a request fails no assertion and keeps the blocks sound.
* `State.run_sound_of_fits` : in a run of such requests all states are sound.
-/

namespace OdinSon.Arna

open Lib

/-! ### The allocator -/

/-- `align_forward_uint`. -/
def alignForward (x alignment : ℕ) : ℕ :=
  if x % alignment = 0 then x else x + (alignment - x % alignment)

/-- `is_power_of_two`. -/
def isPowerOfTwo (x : ℕ) : Bool := 0 < x && x &&& (x - 1) = 0

/-- `Allocator`. -/
structure Allocator where
  /-- The bytes. -/
  mem : ℕ → UInt8
  /-- The bytes in use. -/
  pos : ℕ
  /-- The bytes that are commited. -/
  commited : ℕ
  /-- The bytes that are reserved. -/
  reserved : ℕ

namespace Allocator

/-- `init`. -/
def init (mem : ℕ → UInt8) (size : ℕ) : Allocator := ⟨mem, 0, 0, size⟩

/-- `init_from_buffer`. -/
def initFromBuffer (mem : ℕ → UInt8) (len : ℕ) : Allocator := ⟨mem, 0, len + 1, len⟩

/-- `zero_slice`. -/
def zeroSlice (mem : ℕ → UInt8) (base size : ℕ) (x : ℕ) : UInt8 :=
  if base ≤ x ∧ x < base + size then 0 else mem x

/-- `copy_non_overlapping`. -/
def copyNonOverlapping (mem : ℕ → UInt8) (dst src len : ℕ) (x : ℕ) : UInt8 :=
  if dst ≤ x ∧ x < dst + len then mem (src + (x - dst)) else mem x

/-- How much more is committed for a block. -/
def commitChunk (page : ℕ) (a : Allocator) (size : ℕ) : ℕ :=
  alignForward (max (min (1024 * 1024) (a.reserved - a.commited)) size) page

/-- The arena behind a block. -/
def take (a : Allocator) (base size : ℕ) (zeroed : Bool) : Allocator where
  mem := if zeroed then zeroSlice a.mem base size else a.mem
  pos := base + size
  commited := a.commited
  reserved := a.reserved

/-- `alloc`: the arena, and where the block is, if there is one.  `commits` says whether the system
commits the memory.  `none` is a failed assertion. -/
def alloc (page : ℕ) (a : Allocator) (size alignment : ℕ) (zeroed commits : Bool) :
    Option (Allocator × Option ℕ) := do
  guard (isPowerOfTwo alignment)
  guard (alignment ≤ page)
  let base := alignForward a.pos alignment
  let stop := base + size
  if stop > a.reserved then return (a, none)
  if stop > a.commited then
    if !commits then return (a, none)
    let a := { a with commited := a.commited + commitChunk page a size }
    guard (a.commited ≤ a.reserved)
    guard (stop ≤ a.commited)
    return (a.take base size zeroed, some base)
  return (a.take base size zeroed, some base)

/-- `.Free` of `allocator_proc`. -/
def free (a : Allocator) (oldMemory oldSize : ℕ) : Allocator :=
  if oldMemory + oldSize = a.pos then { a with pos := a.pos - oldSize } else a

/-- `reset` of `.Free_All`, without decommitting. -/
def reset (a : Allocator) : Allocator := { a with pos := 0 }

/-- `.Resize` of `allocator_proc`. -/
def resize (page : ℕ) (a : Allocator) (oldMemory oldSize size alignment : ℕ)
    (zeroed commits : Bool) : Option (Allocator × Option ℕ) := do
  if oldMemory + oldSize ≠ a.pos then
    let (a, bytes) ← a.alloc page size alignment zeroed commits
    match bytes with
    | none => return (a, none)
    | some bytes =>
      return ({ a with mem := copyNonOverlapping a.mem bytes oldMemory (min oldSize size) },
        some bytes)
  else if size < oldSize then return ({ a with pos := a.pos - (oldSize - size) }, some oldMemory)
  else
    let (a, bytes) ← a.alloc page (size - oldSize) 1 zeroed commits
    return (a, bytes.map fun _ => oldMemory)

end Allocator

/-! ### The blocks of an arena -/

/-- A block. -/
structure Block where
  /-- The first byte. -/
  start : ℕ
  /-- The number of bytes. -/
  size : ℕ
  /-- The alignment that was asked for. -/
  align : ℕ
  /-- What its bytes have to be: what was written, or 0. -/
  data : ℕ → Option UInt8

/-- An arena with what its clients know. -/
structure State where
  /-- The arena. -/
  arena : Allocator
  /-- The blocks that are live, by the time at which they were allocated. -/
  live : ℕ → Option Block
  /-- The number of allocations so far. -/
  time : ℕ
  /-- The positions that were saved, each with the time. -/
  saved : List (ℕ × ℕ)

/-- What is done with an arena.  Blocks are named by the time of their allocation, and saved
positions by their number. -/
inductive Op where
  | alloc (size alignment : ℕ) (zeroed commits : Bool)
  | resize (block size alignment : ℕ) (zeroed commits : Bool)
  | free (block : ℕ)
  | freeAll
  | save
  | restore (saved : ℕ)
  | write (block offset : ℕ) (value : UInt8)

/-- What the bytes of a new block have to be. -/
def fresh (zeroed : Bool) : ℕ → Option UInt8 := fun _ => if zeroed then some 0 else none

/-- What the bytes of a resized block have to be: the first ones stay. -/
def Block.resized (b : Block) (size : ℕ) (zeroed : Bool) : ℕ → Option UInt8 := fun k =>
  if k < min b.size size then b.data k else fresh zeroed k

namespace State

/-- A new arena. -/
def start (arena : Allocator) : State := ⟨arena, fun _ => none, 0, []⟩

/-- One operation.  What names no live block or saved position is no request. -/
def step (page : ℕ) (s : State) : Op → Option State
  | .alloc size alignment zeroed commits => do
    let (arena, bytes) ← s.arena.alloc page size alignment zeroed commits
    match bytes with
    | none => return { s with arena }
    | some base =>
      return { s with
        arena
        live := Function.update s.live s.time (some ⟨base, size, alignment, fresh zeroed⟩)
        time := s.time + 1 }
  | .resize block size alignment zeroed commits =>
    match s.live block with
    | none => some s
    | some b => do
      let (arena, bytes) ← s.arena.resize page b.start b.size size alignment zeroed commits
      match bytes with
      | none => return { s with arena }
      | some base =>
        let resized := some ⟨base, size, alignment, b.resized size zeroed⟩
        if b.start + b.size = s.arena.pos then
          return { s with arena, live := Function.update s.live block resized }
        else
          return { s with
            arena
            live := Function.update (Function.update s.live block none) s.time resized
            time := s.time + 1 }
  | .free block =>
    match s.live block with
    | none => some s
    | some b => some { s with
        arena := s.arena.free b.start b.size
        live := Function.update s.live block none }
  | .freeAll => some { s with arena := s.arena.reset, live := fun _ => none }
  | .save => some { s with saved := s.saved ++ [(s.arena.pos, s.time)] }
  | .restore saved =>
    match s.saved[saved]? with
    | none => some s
    | some (pos, time) => some { s with
        arena := { s.arena with pos }
        live := fun block => if block < time then s.live block else none }
  | .write block offset value =>
    match s.live block with
    | none => some s
    | some b =>
      if offset < b.size then
        some { s with
          arena := { s.arena with mem := Function.update s.arena.mem (b.start + offset) value }
          live := Function.update s.live block
            (some { b with data := Function.update b.data offset (some value) }) }
      else some s

/-- A sequence of operations. -/
def run (page : ℕ) : State → List Op → Option State
  | s, [] => some s
  | s, op :: ops => (s.step page op).bind fun s => s.run page ops

/-- **Blocks are what they should be**: no two of them share a byte, they are aligned as requested,
committed and below the position, and hold what was written to them. -/
structure Sound (s : State) : Prop where
  disjoint : ∀ i j b c, i ≠ j → s.live i = some b → s.live j = some c → ∀ x,
    b.start ≤ x → x < b.start + b.size → c.start ≤ x → ¬ x < c.start + c.size
  aligned : ∀ i b, s.live i = some b → b.align ∣ b.start
  commited : ∀ i b, s.live i = some b → b.start + b.size ≤ s.arena.commited
  reserved : ∀ i b, s.live i = some b → b.start + b.size ≤ s.arena.reserved
  below : ∀ i b, s.live i = some b → b.size ≠ 0 → b.start + b.size ≤ s.arena.pos
  contents : ∀ i b, s.live i = some b → ∀ k < b.size, ∀ v, b.data k = some v →
    s.arena.mem (b.start + k) = v

end State

/-- A request that `alloc` serves: the alignment is a power of two and at most a page, and a step of
committing does not go beyond what is reserved. -/
def Allocator.AllocFits (page : ℕ) (a : Allocator) (size alignment : ℕ) (commits : Bool) : Prop :=
  isPowerOfTwo alignment = true ∧ alignment ≤ page ∧
    (alignForward a.pos alignment + size ≤ a.reserved →
      a.commited < alignForward a.pos alignment + size → commits = true →
        a.commited + a.commitChunk page size ≤ a.reserved)

/-- An operation that the arena serves correctly.  What is resized in place has the requested
alignment already, and a position is not restored below the end of a block that was live when it was
saved and has grown since. -/
def State.FitsOp (page : ℕ) (s : State) : Op → Prop
  | .alloc size alignment _ commits => s.arena.AllocFits page size alignment commits
  | .resize block size alignment _ commits => ∀ b, s.live block = some b →
    if b.start + b.size ≠ s.arena.pos then s.arena.AllocFits page size alignment commits
    else alignment ∣ b.start ∧
      (b.size ≤ size → s.arena.AllocFits page (size - b.size) 1 commits)
  | .restore saved => ∀ pos time, s.saved[saved]? = some (pos, time) → ∀ i < time, ∀ b,
    s.live i = some b → b.size ≠ 0 → b.start + b.size ≤ pos
  | _ => True

/-- All operations of a run are served correctly. -/
def State.Fits (page : ℕ) : State → List Op → Prop
  | _, [] => True
  | s, op :: ops => s.FitsOp page op ∧ ∀ t, s.step page op = some t → t.Fits page ops

/-! ### Arithmetic -/

theorem le_alignForward (x alignment : ℕ) : x ≤ alignForward x alignment := by
  unfold alignForward
  split_ifs
  · exact le_rfl
  · exact Nat.le_add_right _ _

theorem dvd_alignForward {x alignment : ℕ} (h : 0 < alignment) :
    alignment ∣ alignForward x alignment := by
  unfold alignForward
  split_ifs with hmod
  · exact Nat.dvd_of_mod_eq_zero hmod
  · have hlt := Nat.mod_lt x h
    have hdiv := Nat.div_add_mod x alignment
    refine ⟨x / alignment + 1, ?_⟩
    rw [Nat.mul_add, Nat.mul_one]
    omega

/-- The next aligned place is not behind any other one. -/
theorem alignForward_le {x y alignment : ℕ} (h : 0 < alignment) (hy : alignment ∣ y) (hxy : x ≤ y) :
    alignForward x alignment ≤ y := by
  unfold alignForward
  split_ifs with hmod
  · exact hxy
  · have hlt := Nat.mod_lt x h
    have hdiv := Nat.div_add_mod x alignment
    obtain ⟨q, rfl⟩ := hy
    have hq : x / alignment < q := by
      by_contra hge
      have := Nat.mul_le_mul_left alignment (Nat.le_of_not_lt hge)
      omega
    have := Nat.mul_le_mul_left alignment (Nat.succ_le_of_lt hq)
    rw [Nat.succ_eq_add_one, Nat.mul_add, Nat.mul_one] at this
    omega

theorem alignForward_one (x : ℕ) : alignForward x 1 = x := if_pos (Nat.mod_one x)

theorem isPow2_of_isPowerOfTwo {x : ℕ} (h : isPowerOfTwo x = true) : IsPow2 x := by
  rw [isPowerOfTwo, Bool.and_eq_true, decide_eq_true_iff, decide_eq_true_iff] at h
  exact isPow2_of_and (by exact_mod_cast h.1) (by rw [Int.toNat_natCast]; exact h.2)

theorem pos_of_isPowerOfTwo {x : ℕ} (h : isPowerOfTwo x = true) : 0 < x := by
  rw [isPowerOfTwo, Bool.and_eq_true, decide_eq_true_iff] at h
  exact h.1

theorem dvd_of_isPowerOfTwo {x y : ℕ} (hx : isPowerOfTwo x = true) (hy : isPowerOfTwo y = true)
    (h : x ≤ y) : x ∣ y :=
  Int.natCast_dvd_natCast.1
    ((isPow2_of_isPowerOfTwo hx).dvd (isPow2_of_isPowerOfTwo hy) (by exact_mod_cast h))

/-! ### `alloc` and `resize` -/

namespace Allocator

variable {a a' : Allocator} {page size alignment : ℕ} {zeroed commits : Bool}

/-- The position is in the committed memory, which ends between pages or is all there is. -/
structure Inv (page : ℕ) (a : Allocator) : Prop where
  commited : a.pos ≤ a.commited
  reserved : a.pos ≤ a.reserved
  pages : page ∣ a.commited ∨ a.reserved < a.commited

/-- A block that `alloc` has taken. -/
structure Taken (a a' : Allocator) (base size alignment : ℕ) (zeroed : Bool) : Prop where
  base_eq : base = alignForward a.pos alignment
  pos_eq : a'.pos = base + size
  mem_eq : a'.mem = if zeroed then zeroSlice a.mem base size else a.mem
  commited_le : a.commited ≤ a'.commited
  reserved_eq : a'.reserved = a.reserved

/-- **`alloc` does not fail** a request that fits: it returns a block, or leaves all as it was. -/
theorem Inv.alloc (ha : a.Inv page) (hpage : isPowerOfTwo page = true) (zeroed : Bool)
    (hfits : a.AllocFits page size alignment commits) :
    (a.alloc page size alignment zeroed commits = some (a, none)) ∨
      ∃ a' base, a.alloc page size alignment zeroed commits = some (a', some base) ∧
        a'.Inv page ∧ a.Taken a' base size alignment zeroed := by
  obtain ⟨hpow, hle, hcommit⟩ := hfits
  have hpos := pos_of_isPowerOfTwo hpage
  simp only [Allocator.alloc, guard, if_pos hpow, if_pos hle, Option.pure_def, Option.bind_eq_bind,
    Option.bind_some]
  by_cases hstop : alignForward a.pos alignment + size > a.reserved
  · exact .inl (if_pos hstop)
  rw [if_neg hstop]
  by_cases hmore : alignForward a.pos alignment + size > a.commited
  · rw [if_pos hmore]
    cases commits with
    | false => exact .inl rfl
    | true =>
      right
      -- the committed memory ends between pages, so the block begins in it
      have hbase : alignForward a.pos alignment ≤ a.commited := by
        rcases ha.pages with hdvd | hlt
        · exact alignForward_le (pos_of_isPowerOfTwo hpow)
            ((dvd_of_isPowerOfTwo hpow hpage hle).trans hdvd) ha.commited
        · omega
      have hchunk : size ≤ a.commitChunk page size :=
        (le_max_right _ _).trans (le_alignForward _ _)
      have hle := hcommit (by omega) hmore rfl
      have hdvd : page ∣ a.commitChunk page size := dvd_alignForward hpos
      rw [if_neg (by decide)]
      simp only [if_pos hle, Option.bind_some]
      rw [if_pos (by omega)]
      refine ⟨_, _, rfl, ⟨?_, ?_, ?_⟩, ⟨rfl, rfl, rfl, Nat.le_add_right _ _, rfl⟩⟩
      · show alignForward a.pos alignment + size ≤ a.commited + a.commitChunk page size
        omega
      · show alignForward a.pos alignment + size ≤ a.reserved
        omega
      · rcases ha.pages with hp | hlt
        · exact .inl (Nat.dvd_add hp hdvd)
        · omega
  · rw [if_neg hmore]
    refine .inr ⟨_, _, rfl, ⟨?_, ?_, ha.pages⟩, ⟨rfl, rfl, rfl, le_rfl, rfl⟩⟩
    · exact Nat.le_of_not_lt hmore
    · exact Nat.le_of_not_lt hstop

/-- What `alloc` has done to the bytes below the new block. -/
theorem Taken.mem_of_lt {base x : ℕ}
    (h : a.Taken a' base size alignment zeroed) (hx : x < base) : a'.mem x = a.mem x := by
  rw [h.mem_eq]
  split_ifs
  · exact if_neg fun hle => absurd hle.1 (Nat.not_le.2 hx)
  · rfl

/-- The bytes of the new block are those of a fresh one. -/
theorem Taken.mem_fresh {base k : ℕ} {v : UInt8}
    (h : a.Taken a' base size alignment zeroed) (hk : k < size) (hv : fresh zeroed k = some v) :
    a'.mem (base + k) = v := by
  cases zeroed with
  | false => cases hv
  | true =>
    rw [h.mem_eq, if_pos rfl, zeroSlice, if_pos ⟨Nat.le_add_right _ _, by omega⟩]
    exact Option.some.inj hv

theorem inv_init (mem : ℕ → UInt8) (page size : ℕ) : (init mem size).Inv page :=
  ⟨le_rfl, Nat.zero_le _, .inl (dvd_zero page)⟩

theorem inv_initFromBuffer (mem : ℕ → UInt8) (page len : ℕ) : (initFromBuffer mem len).Inv page :=
  ⟨Nat.zero_le _, Nat.zero_le _, .inr (Nat.lt_succ_self len)⟩

end Allocator

/-! ### One operation -/

namespace State

variable {s t : State} {page : ℕ} {op : Op} {ops : List Op}

/-- The state is sound, and all saved positions can be restored. -/
structure Inv (page : ℕ) (s : State) : Prop extends s.Sound where
  arena : s.arena.Inv page
  time : ∀ i b, s.live i = some b → i < s.time
  saved : ∀ p ∈ s.saved, p.1 ≤ s.arena.commited ∧ p.1 ≤ s.arena.reserved

/-- Fewer blocks. -/
theorem Inv.restrict (hs : s.Inv page) (live : ℕ → Option Block)
    (h : ∀ i b, live i = some b → s.live i = some b) : Inv page { s with live } where
  disjoint i j b c hij hb hc := hs.disjoint i j b c hij (h i b hb) (h j c hc)
  aligned i b hb := hs.aligned i b (h i b hb)
  commited i b hb := hs.commited i b (h i b hb)
  reserved i b hb := hs.reserved i b (h i b hb)
  below i b hb := hs.below i b (h i b hb)
  contents i b hb := hs.contents i b (h i b hb)
  arena := hs.arena
  time i b hb := hs.time i b (h i b hb)
  saved := hs.saved

/-- Another position, above the blocks. -/
theorem Inv.setPos {pos : ℕ} (hs : s.Inv page) (hcommited : pos ≤ s.arena.commited)
    (hreserved : pos ≤ s.arena.reserved)
    (hbelow : ∀ i b, s.live i = some b → b.size ≠ 0 → b.start + b.size ≤ pos) :
    Inv page { s with arena := { s.arena with pos } } where
  disjoint := hs.disjoint
  aligned := hs.aligned
  commited := hs.commited
  reserved := hs.reserved
  below := hbelow
  contents := hs.contents
  arena := ⟨hcommited, hreserved, hs.arena.pages⟩
  time := hs.time
  saved := hs.saved

/-- The blocks other than the last one end where it starts. -/
theorem Inv.le_start_of_last {i j : ℕ} {b c : Block} (hs : s.Inv page) (hij : i ≠ j)
    (hb : s.live i = some b) (hc : s.live j = some c) (hlast : b.start + b.size = s.arena.pos)
    (hne : c.size ≠ 0) : c.start + c.size ≤ b.start := by
  by_contra hlt
  have hbelow := hs.below j c hc hne
  exact hs.disjoint i j b c hij hb hc (c.start + c.size - 1) (by omega) (by omega) (by omega)
    (by omega)

theorem update_eq_some {live : ℕ → Option Block} {i j : ℕ} {b c : Block}
    (h : Function.update live i (some b) j = some c) : j = i ∧ c = b ∨ j ≠ i ∧ live j = some c := by
  by_cases hj : j = i
  · subst hj
    rw [Function.update_self] at h
    exact .inl ⟨rfl, (Option.some.inj h).symm⟩
  · rw [Function.update_of_ne hj] at h
    exact .inr ⟨hj, h⟩

theorem update_none_eq_some {live : ℕ → Option Block} {i j : ℕ} {c : Block}
    (h : Function.update live i none j = some c) : j ≠ i ∧ live j = some c := by
  by_cases hj : j = i
  · subst hj
    rw [Function.update_self] at h
    cases h
  · rw [Function.update_of_ne hj] at h
    exact ⟨hj, h⟩

/-- **A new or grown block** above the others. -/
theorem Inv.put {arena : Allocator} {i time : ℕ} {b : Block} (hs : s.Inv page)
    (harena : arena.Inv page) (hcommited : s.arena.commited ≤ arena.commited)
    (hreserved : arena.reserved = s.arena.reserved) (hpos : b.start + b.size = arena.pos)
    (haligned : b.align ∣ b.start)
    (hbelow : ∀ j c, j ≠ i → s.live j = some c → c.size ≠ 0 → c.start + c.size ≤ b.start)
    (hcontents : ∀ j c, j ≠ i → s.live j = some c → ∀ k < c.size, ∀ v, c.data k = some v →
      arena.mem (c.start + k) = v)
    (hdata : ∀ k < b.size, ∀ v, b.data k = some v → arena.mem (b.start + k) = v)
    (htime : s.time ≤ time) (hi : i < time) :
    Inv page { s with arena, live := Function.update s.live i (some b), time } := by
  constructor
  · constructor
    · intro j k c d hjk hc hd x hcx hxc hdx hxd
      rcases update_eq_some hc with ⟨rfl, rfl⟩ | ⟨hj, hc'⟩
      · rcases update_eq_some hd with ⟨rfl, rfl⟩ | ⟨hk, hd⟩
        · exact hjk rfl
        · have := hbelow k d hk hd (by omega)
          omega
      · rcases update_eq_some hd with ⟨rfl, rfl⟩ | ⟨hk, hd'⟩
        · have := hbelow j c hj hc' (by omega)
          omega
        · exact hs.disjoint j k c d hjk hc' hd' x hcx hxc hdx hxd
    · intro j c hc
      rcases update_eq_some hc with ⟨-, rfl⟩ | ⟨-, hc⟩
      · exact haligned
      · exact hs.aligned j c hc
    · intro j c hc
      rcases update_eq_some hc with ⟨-, rfl⟩ | ⟨-, hc⟩
      · exact hpos.trans_le harena.commited
      · exact (hs.commited j c hc).trans hcommited
    · intro j c hc
      rcases update_eq_some hc with ⟨-, rfl⟩ | ⟨-, hc⟩
      · exact hpos.trans_le harena.reserved
      · exact (hs.reserved j c hc).trans_eq hreserved.symm
    · intro j c hc hne
      rcases update_eq_some hc with ⟨-, rfl⟩ | ⟨hj, hc⟩
      · exact hpos.le
      · have := hbelow j c hj hc hne
        show c.start + c.size ≤ arena.pos
        omega
    · intro j c hc
      rcases update_eq_some hc with ⟨-, rfl⟩ | ⟨hj, hc⟩
      · exact hdata
      · exact hcontents j c hj hc
  · exact harena
  · intro j c hc
    rcases update_eq_some hc with ⟨rfl, -⟩ | ⟨-, hc⟩
    · exact hi
    · exact (hs.time j c hc).trans_le htime
  · intro p hp
    obtain ⟨h1, h2⟩ := hs.saved p hp
    exact ⟨h1.trans hcommited, h2.trans_eq hreserved.symm⟩

/-- Blocks with bytes end below a new block. -/
theorem Inv.le_base {arena : Allocator} {i base size alignment : ℕ} {c : Block} {zeroed : Bool}
    (hs : s.Inv page) (h : s.arena.Taken arena base size alignment zeroed)
    (hc : s.live i = some c) (hne : c.size ≠ 0) : c.start + c.size ≤ base := by
  rw [h.base_eq]
  exact (hs.below i c hc hne).trans (le_alignForward _ _)

/-- `Alloc`. -/
theorem Inv.alloc {size alignment : ℕ} {zeroed commits : Bool} (hs : s.Inv page)
    (hpage : isPowerOfTwo page = true) (hfits : s.arena.AllocFits page size alignment commits) :
    ∃ t, s.step page (.alloc size alignment zeroed commits) = some t ∧ t.Inv page := by
  rcases hs.arena.alloc hpage zeroed hfits with hnone | ⟨arena, base, hsome, ha, htaken⟩
  · refine ⟨s, ?_, hs⟩
    rw [step, hnone]
    rfl
  · refine ⟨_, by rw [step, hsome]; rfl, ?_⟩
    have hpow := pos_of_isPowerOfTwo hfits.1
    refine hs.put ha htaken.commited_le htaken.reserved_eq htaken.pos_eq.symm ?_
      (fun j c _ hc hne => hs.le_base htaken hc hne) (fun j c _ hc k hk v hv => ?_)
      (fun k hk v hv => htaken.mem_fresh hk hv) (Nat.le_succ _) (Nat.lt_succ_self _)
    · rw [htaken.base_eq]
      exact dvd_alignForward hpow
    · have hle := hs.le_base htaken hc (by omega)
      rw [htaken.mem_of_lt (by omega)]
      exact hs.contents j c hc k hk v hv

/-- `Resize` of a block that is not the last: its bytes are copied to a new block. -/
theorem Inv.resize_moved {i size alignment : ℕ} {b : Block} {zeroed commits : Bool}
    (hs : s.Inv page) (hpage : isPowerOfTwo page = true) (hb : s.live i = some b)
    (hlast : b.start + b.size ≠ s.arena.pos)
    (hfits : s.arena.AllocFits page size alignment commits) :
    ∃ t, s.step page (.resize i size alignment zeroed commits) = some t ∧ t.Inv page := by
  rcases hs.arena.alloc hpage zeroed hfits with hnone | ⟨arena, base, hsome, ha, htaken⟩
  · refine ⟨s, ?_, hs⟩
    rw [step, hb]
    simp only [Allocator.resize, if_pos hlast, hnone]
    rfl
  · have hstep : s.step page (.resize i size alignment zeroed commits) = some { s with
        arena := { arena with
          mem := Allocator.copyNonOverlapping arena.mem base b.start (min b.size size) }
        live := Function.update (Function.update s.live i none) s.time
          (some ⟨base, size, alignment, b.resized size zeroed⟩)
        time := s.time + 1 } := by
      rw [step, hb]
      simp only [Allocator.resize, if_pos hlast, hsome, Option.bind_eq_bind, Option.bind_some,
        Option.pure_def, if_neg hlast]
    refine ⟨_, hstep, ?_⟩
    have hrest := hs.restrict (Function.update s.live i none) fun j c hc =>
      (update_none_eq_some hc).2
    have hcopy {x : ℕ} (hx : x < base) : Allocator.copyNonOverlapping arena.mem base b.start
        (min b.size size) x = s.arena.mem x := by
      rw [Allocator.copyNonOverlapping, if_neg (by omega), htaken.mem_of_lt hx]
    refine hrest.put ⟨ha.commited, ha.reserved, ha.pages⟩ htaken.commited_le htaken.reserved_eq
      htaken.pos_eq.symm ?_ (fun j c _ hc hne => hrest.le_base htaken hc hne)
      (fun j c _ hc k hk v hv => ?_) (fun k hk v hv => ?_) (Nat.le_succ _) (Nat.lt_succ_self _)
    · rw [htaken.base_eq]
      exact dvd_alignForward (pos_of_isPowerOfTwo hfits.1)
    · have hle := hrest.le_base htaken hc (by omega)
      refine (hcopy (by omega)).trans ?_
      exact hrest.contents j c hc k hk v hv
    · show Allocator.copyNonOverlapping _ _ _ _ (base + k) = v
      have hv : b.resized size zeroed k = some v := hv
      rw [Block.resized] at hv
      rw [Allocator.copyNonOverlapping]
      split_ifs at hv with hmin
      · -- a byte that is copied
        have hle := hs.le_base htaken hb (by omega)
        rw [if_pos ⟨Nat.le_add_right _ _, by omega⟩, Nat.add_sub_cancel_left,
          htaken.mem_of_lt (by omega)]
        exact hs.contents i b hb k (by omega) v hv
      · rw [if_neg (by omega)]
        exact htaken.mem_fresh hk hv

/-- `Resize` of the last block, in place. -/
theorem Inv.resize_inPlace {i size alignment : ℕ} {b : Block} {zeroed commits : Bool}
    (hs : s.Inv page) (hpage : isPowerOfTwo page = true) (hb : s.live i = some b)
    (hlast : b.start + b.size = s.arena.pos) (halign : alignment ∣ b.start)
    (hfits : b.size ≤ size → s.arena.AllocFits page (size - b.size) 1 commits) :
    ∃ t, s.step page (.resize i size alignment zeroed commits) = some t ∧ t.Inv page := by
  have hbelow (j : ℕ) (c : Block) (hj : j ≠ i) (hc : s.live j = some c) (hne : c.size ≠ 0) :
      c.start + c.size ≤ b.start := hs.le_start_of_last (Ne.symm hj) hb hc hlast hne
  have htime := hs.time i b hb
  rcases Nat.lt_or_ge size b.size with hlt | hge
  · -- the block shrinks
    have hstep : s.step page (.resize i size alignment zeroed commits) = some { s with
        arena := { s.arena with pos := s.arena.pos - (b.size - size) }
        live := Function.update s.live i
          (some ⟨b.start, size, alignment, b.resized size zeroed⟩) } := by
      rw [step, hb]
      simp only [Allocator.resize, if_neg (not_not.2 hlast), if_pos hlt, Option.bind_eq_bind,
        Option.bind_some, Option.pure_def, if_pos hlast]
    refine ⟨_, hstep, ?_⟩
    refine hs.put ⟨?_, ?_, hs.arena.pages⟩ le_rfl rfl ?_ halign hbelow
      (fun j c _ hc => hs.contents j c hc) (fun k hk v hv => ?_) le_rfl htime
    · exact (Nat.sub_le _ _).trans hs.arena.commited
    · exact (Nat.sub_le _ _).trans hs.arena.reserved
    · show b.start + size = s.arena.pos - (b.size - size)
      omega
    · have hk : k < size := hk
      have hv : b.resized size zeroed k = some v := hv
      rw [Block.resized, if_pos (by omega)] at hv
      exact hs.contents i b hb k (by omega) v hv
  · rcases hs.arena.alloc hpage zeroed (hfits hge) with
      hnone | ⟨arena, base, hsome, ha, htaken⟩
    · refine ⟨s, ?_, hs⟩
      rw [step, hb]
      simp only [Allocator.resize, if_neg (not_not.2 hlast), if_neg (Nat.not_lt.2 hge), hnone]
      rfl
    · -- the block grows at the position
      have hbase : base = s.arena.pos := htaken.base_eq.trans (alignForward_one _)
      have hstep : s.step page (.resize i size alignment zeroed commits) = some { s with
          arena
          live := Function.update s.live i
            (some ⟨b.start, size, alignment, b.resized size zeroed⟩) } := by
        rw [step, hb]
        simp only [Allocator.resize, if_neg (not_not.2 hlast), if_neg (Nat.not_lt.2 hge), hsome,
          Option.bind_eq_bind, Option.bind_some, Option.pure_def, Option.map_some, if_pos hlast]
      refine ⟨_, hstep, ?_⟩
      refine hs.put ha htaken.commited_le htaken.reserved_eq ?_ halign hbelow
        (fun j c hj hc k hk v hv => ?_) (fun k hk v hv => ?_) le_rfl htime
      · have := htaken.pos_eq
        show b.start + size = arena.pos
        omega
      · have := hbelow j c hj hc (by omega)
        rw [htaken.mem_of_lt (by omega)]
        exact hs.contents j c hc k hk v hv
      · have hk : k < size := hk
        have hv : b.resized size zeroed k = some v := hv
        show arena.mem (b.start + k) = v
        rw [Block.resized] at hv
        split_ifs at hv with hmin
        · rw [htaken.mem_of_lt (by omega)]
          exact hs.contents i b hb k (by omega) v hv
        · have hfresh : fresh zeroed (b.start + k - base) = some v := hv
          have hmem := htaken.mem_fresh (by omega) hfresh
          rwa [show base + (b.start + k - base) = b.start + k by omega] at hmem

/-- `Free` gives back the last block, and no other one. -/
theorem Inv.free {i : ℕ} {b : Block} (hs : s.Inv page) (hb : s.live i = some b) :
    Inv page { s with
      arena := s.arena.free b.start b.size, live := Function.update s.live i none } := by
  have hrest := hs.restrict (Function.update s.live i none) fun j c hc =>
    (update_none_eq_some hc).2
  unfold Allocator.free
  split_ifs with hlast
  · refine hrest.setPos ((Nat.sub_le _ _).trans hs.arena.commited)
      ((Nat.sub_le _ _).trans hs.arena.reserved) fun j c hc hne => ?_
    obtain ⟨hj, hc⟩ := update_none_eq_some hc
    have := hs.le_start_of_last (Ne.symm hj) hb hc hlast hne
    omega
  · exact hrest

/-- The owner of a block writes to it. -/
theorem Inv.write {i k : ℕ} {b : Block} {v : UInt8} (hs : s.Inv page) (hb : s.live i = some b)
    (hk : k < b.size) :
    Inv page { s with
      arena := { s.arena with mem := Function.update s.arena.mem (b.start + k) v }
      live := Function.update s.live i
        (some { b with data := Function.update b.data k (some v) }) } := by
  -- a write moves no block
  have hold {j : ℕ} {c : Block} (hc : Function.update s.live i
      (some { b with data := Function.update b.data k (some v) }) j = some c) :
      ∃ d, s.live j = some d ∧ c.start = d.start ∧ c.size = d.size ∧ c.align = d.align := by
    rcases update_eq_some hc with ⟨rfl, rfl⟩ | ⟨-, hc⟩
    · exact ⟨b, hb, rfl, rfl, rfl⟩
    · exact ⟨c, hc, rfl, rfl, rfl⟩
  constructor
  · constructor
    · intro j l c d hjl hc hd x hcx hxc hdx hxd
      obtain ⟨c', hc', h1, h2, -⟩ := hold hc
      obtain ⟨d', hd', h3, h4, -⟩ := hold hd
      exact hs.disjoint j l c' d' hjl hc' hd' x (by omega) (by omega) (by omega) (by omega)
    · intro j c hc
      obtain ⟨d, hd, h1, -, h3⟩ := hold hc
      rw [h1, h3]
      exact hs.aligned j d hd
    · intro j c hc
      obtain ⟨d, hd, h1, h2, -⟩ := hold hc
      rw [h1, h2]
      exact hs.commited j d hd
    · intro j c hc
      obtain ⟨d, hd, h1, h2, -⟩ := hold hc
      rw [h1, h2]
      exact hs.reserved j d hd
    · intro j c hc hne
      obtain ⟨d, hd, h1, h2, -⟩ := hold hc
      rw [h1, h2]
      exact hs.below j d hd (h2 ▸ hne)
    · intro j c hc l hl w hw
      show Function.update s.arena.mem (b.start + k) v (c.start + l) = w
      rcases update_eq_some hc with ⟨rfl, rfl⟩ | ⟨hj, hc⟩
      · have hw : Function.update b.data k (some v) l = some w := hw
        by_cases hlk : l = k
        · subst hlk
          rw [Function.update_self] at hw ⊢
          exact Option.some.inj hw
        · rw [Function.update_of_ne hlk] at hw
          rw [Function.update_of_ne (fun h => hlk (Nat.add_left_cancel h))]
          exact hs.contents j b hb l hl w hw
      · -- the blocks are apart, so the byte is in this block only
        have hne : c.start + l ≠ b.start + k := fun heq =>
          hs.disjoint j i c b hj hc hb (c.start + l) (by omega) (by omega) (by omega) (by omega)
        rw [Function.update_of_ne hne]
        exact hs.contents j c hc l hl w hw
  · exact ⟨hs.arena.commited, hs.arena.reserved, hs.arena.pages⟩
  · intro j c hc
    obtain ⟨d, hd, -⟩ := hold hc
    exact hs.time j d hd
  · exact hs.saved

/-- **An operation that fits does not fail, and keeps the blocks sound.** -/
theorem Inv.step (hs : s.Inv page) (hpage : isPowerOfTwo page = true) (hfits : s.FitsOp page op) :
    ∃ t, s.step page op = some t ∧ t.Inv page := by
  cases op with
  | alloc size alignment zeroed commits => exact hs.alloc hpage hfits
  | resize i size alignment zeroed commits =>
    cases hb : s.live i with
    | none => exact ⟨s, by rw [State.step, hb], hs⟩
    | some b =>
      have hfits := hfits b hb
      split_ifs at hfits with hlast
      · exact hs.resize_moved hpage hb hlast hfits
      · exact hs.resize_inPlace hpage hb (not_not.1 hlast) hfits.1 hfits.2
  | free i =>
    cases hb : s.live i with
    | none => exact ⟨s, by rw [State.step, hb], hs⟩
    | some b => exact ⟨_, by rw [State.step, hb], hs.free hb⟩
  | freeAll =>
    have hrest := hs.restrict (fun _ => none) fun j c hc => by cases hc
    exact ⟨_, rfl, hrest.setPos (Nat.zero_le _) (Nat.zero_le _) fun j c hc => by cases hc⟩
  | save =>
    refine ⟨_, rfl, ⟨⟨hs.disjoint, hs.aligned, hs.commited, hs.reserved, hs.below, hs.contents⟩,
      hs.arena, hs.time, fun p hp => ?_⟩⟩
    rcases List.mem_append.1 hp with hp | hp
    · exact hs.saved p hp
    · rw [List.mem_singleton.1 hp]
      exact ⟨hs.arena.commited, hs.arena.reserved⟩
  | restore k =>
    cases hk : s.saved[k]? with
    | none => exact ⟨s, by rw [State.step, hk], hs⟩
    | some p =>
      obtain ⟨hcommited, hreserved⟩ := hs.saved p (List.mem_of_getElem? hk)
      have hrest := hs.restrict (fun i => if i < p.2 then s.live i else none)
        fun j c hc => by
          split_ifs at hc
          exact hc
      refine ⟨_, by rw [State.step, hk], hrest.setPos hcommited hreserved fun j c hc hne => ?_⟩
      have hc : (if j < p.2 then s.live j else none) = some c := hc
      split_ifs at hc with hj
      exact hfits p.1 p.2 hk j hj c hc hne
  | write i k v =>
    cases hb : s.live i with
    | none => exact ⟨s, by rw [State.step, hb], hs⟩
    | some b =>
      by_cases hk : k < b.size
      · exact ⟨_, by rw [State.step, hb]; exact if_pos hk, hs.write hb hk⟩
      · exact ⟨s, by rw [State.step, hb]; exact if_neg hk, hs⟩

/-! ### Runs -/

theorem inv_start {arena : Allocator} (h : arena.Inv page) : (start arena).Inv page := by
  refine ⟨⟨?_, ?_, ?_, ?_, ?_, ?_⟩, h, ?_, fun p hp => absurd hp List.not_mem_nil⟩
  · intro i j b c _ hb
    cases hb
  all_goals
    intro i b hb
    cases hb

theorem Inv.run (hs : s.Inv page) (hpage : isPowerOfTwo page = true) (hfits : s.Fits page ops) :
    ∃ t, s.run page ops = some t ∧ t.Inv page := by
  induction ops generalizing s with
  | nil => exact ⟨s, rfl, hs⟩
  | cons op ops ih =>
    obtain ⟨u, hu, hinv⟩ := hs.step hpage hfits.1
    obtain ⟨t, ht, hinv⟩ := ih hinv (hfits.2 u hu)
    exact ⟨t, by rw [State.run, hu]; exact ht, hinv⟩

theorem Fits.of_prefix {before : List Op} (h : s.Fits page ops) (hb : before <+: ops) :
    s.Fits page before := by
  induction before generalizing s ops with
  | nil => trivial
  | cons op before ih =>
    obtain ⟨rest, rfl⟩ := hb
    exact ⟨h.1, fun t ht => ih (h.2 t ht) (List.prefix_append before rest)⟩

/-- **The arena serves the requests that fit**: no assertion fails, and in every state the live
blocks are disjoint, aligned, committed, and hold what their owners have written to them, through
all moves. -/
theorem run_sound_of_fits (page : ℕ) (hpage : isPowerOfTwo page = true) (arena : Allocator)
    (mem : ℕ → UInt8) (size : ℕ)
    (harena : arena = Allocator.init mem size ∨ arena = Allocator.initFromBuffer mem size)
    (ops : List Op) (hfits : (start arena).Fits page ops) :
    ∀ before, before <+: ops → ∃ t, (start arena).run page before = some t ∧ t.Sound := by
  intro before hb
  have harena : arena.Inv page := by
    rcases harena with rfl | rfl
    · exact Allocator.inv_init mem page size
    · exact Allocator.inv_initFromBuffer mem page size
  obtain ⟨t, ht, hinv⟩ := (inv_start harena).run hpage (Fits.of_prefix hfits hb)
  exact ⟨t, ht, hinv.toSound⟩

/-- A small arena. -/
def smallArena (size : ℕ) : State := start (Allocator.init (fun _ => 0) size)

/-- A block that grows in place, in a buffer of 100 bytes. -/
theorem run_sound_of_fits_grow :
    isPowerOfTwo 4096 = true ∧
      ∀ before, before <+: [Op.alloc 3 1 true true, .resize 0 5 1 true true] →
        ∃ t, (start (Allocator.initFromBuffer (fun _ => 0) 100)).run 4096 before = some t ∧
          t.Sound := by
  refine ⟨by decide, run_sound_of_fits 4096 (by decide) _ (fun _ => 0) 100 (.inr rfl) _
    ⟨?_, fun t ht => ?_⟩⟩
  · exact ⟨by decide, by decide, fun h h' => absurd h' (by decide)⟩
  · obtain rfl := Option.some.inj ht
    refine ⟨fun b hb => ?_, fun t _ => trivial⟩
    obtain rfl := Option.some.inj hb
    rw [if_neg (by decide)]
    exact ⟨one_dvd _, fun _ => ⟨by decide, by decide, fun h h' => absurd h' (by decide)⟩⟩

/-- Four requests that the arena does not serve.  An arena of 100 bytes fails its first request,
and one of two megabytes one for what is left of it; a block that is resized in place keeps its old
alignment; and one that has grown after a position was saved shares bytes with the next one after
the position is restored. -/
theorem exists_request_not_served :
    ((smallArena 100).run 4096 [.alloc 1 1 true true]).isNone = true ∧
      ((smallArena (2 * 1024 * 1024)).run 4096
        [.alloc 1 1 true true, .freeAll, .alloc (3 * 512 * 1024) 1 true true]).isNone = true ∧
      (((smallArena 8192).run 4096 [.alloc 1 1 true true, .alloc 1 1 true true,
        .resize 1 2 16 true true]).bind fun s => (s.live 1).map fun b => (b.start, b.align)) =
          some (1, 16) ∧
      (((smallArena 8192).run 4096 [.alloc 1 1 true true, .save, .resize 0 9 1 true true,
        .restore 0, .alloc 1 1 true true]).map fun s =>
          [s.live 0, s.live 1].map fun b => b.map fun b => (b.start, b.size)) =
            some [some (0, 9), some (1, 1)] := by
  decide +kernel

end State

end OdinSon.Arna
