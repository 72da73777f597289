import Mathlib.Data.List.Basic

/-!
# UEFI device paths: what a call of the source can do

The device-path code of `uefi::proto::device_path` reads packed bytes through raw
pointers and through slices. This module fixes how the model renders a call of it.

**Outcomes.**  A call returns `Except Fault α`: a value, the source's own
`Err(ByteConversionError)`, a panic, or a read of memory that nobody made valid.
The model follows a build with overflow checks (the profile `cargo test` uses), so
an arithmetic underflow is the panic `subtractWithOverflow`.

**Memory.**  A raw pointer is an address into `Memory`, which gives the byte at
each address or `none` where no valid memory lies.  A slice is the memory
`Memory.ofBytes bytes`: its bytes from address `0`, and nothing valid after them.

**Loops and iterators.**  A loop body returns `Flow`: back to the loop head with
new variables, or out of the loop with a value.  An iterator is its `next`
function on an explicit state; `nextN` runs it a number of times and `Yields` says
what every call of it returns.
-/

namespace UefiDevicePath

/-- `ByteConversionError`: the error of converting a `&[u8]` to a device path type. -/
inductive ByteConversionError
  | invalidLength
deriving DecidableEq, Repr

/-- The panics the modelled functions can reach. -/
inductive Panic
  /-- `a - b` on `usize` with `a < b`. -/
  | subtractWithOverflow
  /-- `&bytes[start..]` with `start > bytes.len()`. -/
  | sliceStartIndexLenFail
  /-- `bytes.split_at(mid)` with `mid > bytes.len()`. -/
  | splitAtMidGtLen
deriving DecidableEq, Repr

/-- Why a call ends without a value. -/
inductive Fault
  /-- The function returned `Err(e)`. -/
  | err (e : ByteConversionError)
  | panic (p : Panic)
  /-- A read through a pointer, or a reference made from one, over memory that is not valid. -/
  | invalidRead
deriving DecidableEq, Repr

/-- Memory as raw pointers see it: the byte at each address, `none` where no valid memory lies. -/
def Memory := Nat → Option UInt8

namespace Memory

/-- The memory behind a slice: its bytes from address `0`, nothing valid after them. -/
def ofBytes
    (bytes : List UInt8) :
    Memory := fun addr => bytes[addr]?

/-- `count` bytes read from `addr` on; `none` if one of them is not valid. -/
def read
    (m : Memory)
    (addr : Nat) :
    Nat → Option (List UInt8)
  | 0 => some []
  | count + 1 => do
      let b ← m addr
      let bs ← m.read (addr + 1) count
      pure (b :: bs)

/-- `m` holds `bytes` from address `addr` on. -/
def Holds
    (m : Memory) :
    Nat → List UInt8 → Prop
  | _, [] => True
  | addr, b :: bs => m addr = some b ∧ m.Holds (addr + 1) bs

variable {m : Memory}

theorem read_length
    {addr count : Nat}
    {bs : List UInt8}
    (h : m.read addr count = some bs) :
    bs.length = count := by
  induction count generalizing addr bs with
  | zero =>
      simp only [read, Option.some.injEq] at h
      simp [← h]
  | succ count ih =>
      simp only [read, Option.bind_eq_bind, Option.bind_eq_some, Option.pure_def,
        Option.some.injEq] at h
      obtain ⟨b, -, bs', hbs', rfl⟩ := h
      simp [ih hbs']

theorem holds_append
    {addr : Nat}
    {l r : List UInt8} :
    m.Holds addr (l ++ r) ↔ m.Holds addr l ∧ m.Holds (addr + l.length) r := by
  induction l generalizing addr with
  | nil =>
      simp [Holds]
  | cons b l ih =>
      rw [List.cons_append]
      simp only [Holds, ih, List.length_cons, and_assoc, Nat.add_right_comm _ 1, Nat.add_assoc]

/-- A read inside memory that holds known bytes returns those bytes. -/
theorem read_of_holds
    {addr count : Nat}
    {bytes : List UInt8}
    (h : m.Holds addr bytes)
    (hc : count ≤ bytes.length) :
    m.read addr count = some (bytes.take count) := by
  induction bytes generalizing addr count with
  | nil =>
      simp only [List.length_nil, Nat.le_zero] at hc
      simp [hc, read]
  | cons b bytes ih =>
      cases count with
      | zero =>
          rfl
      | succ count =>
          simp only [Holds] at h
          simp [read, h.1, ih h.2 (by simpa using hc)]

theorem holds_of_read
    {addr count : Nat}
    {bs : List UInt8}
    (h : m.read addr count = some bs) :
    m.Holds addr bs := by
  induction count generalizing addr bs with
  | zero =>
      simp only [read, Option.some.injEq] at h
      simp [← h, Holds]
  | succ count ih =>
      simp only [read, Option.bind_eq_bind, Option.bind_eq_some, Option.pure_def,
        Option.some.injEq] at h
      obtain ⟨b, hb, bs', hbs', rfl⟩ := h
      exact ⟨hb, ih hbs'⟩

/-- The memory of a slice holds exactly the prefixes of what follows the address. -/
theorem holds_ofBytes_iff
    {bytes l : List UInt8}
    {addr : Nat} :
    (ofBytes bytes).Holds addr l ↔ l <+: bytes.drop addr := by
  induction l generalizing addr with
  | nil =>
      simp [Holds]
  | cons b l ih =>
      show bytes[addr]? = some b ∧ _ ↔ _
      rw [ih]
      by_cases h : addr < bytes.length
      · rw [List.drop_eq_getElem_cons h, List.cons_prefix_cons, List.getElem?_eq_getElem h]
        simp [eq_comm]
      · have hle : bytes.length ≤ addr := by omega
        simp [List.drop_eq_nil_of_le hle, List.getElem?_eq_none hle]

theorem holds_ofBytes
    (bytes : List UInt8) :
    (ofBytes bytes).Holds 0 bytes :=
  holds_ofBytes_iff.2 (by simp)

end Memory

/-- `&bytes[start..]`. -/
def sliceFrom
    (bytes : List UInt8)
    (start : Nat) :
    Except Fault (List UInt8) :=
  if start ≤ bytes.length then .ok (bytes.drop start)
  else .error (.panic .sliceStartIndexLenFail)

/-- `bytes.split_at(mid)`. -/
def splitAt
    (bytes : List UInt8)
    (mid : Nat) :
    Except Fault (List UInt8 × List UInt8) :=
  if mid ≤ bytes.length then .ok (bytes.take mid, bytes.drop mid)
  else .error (.panic .splitAtMidGtLen)

theorem sliceFrom_eq_ok
    {bytes rest : List UInt8}
    {start : Nat} :
    sliceFrom bytes start = .ok rest ↔ start ≤ bytes.length ∧ rest = bytes.drop start := by
  unfold sliceFrom
  split <;> simp [*, eq_comm]

@[simp] theorem sliceFrom_append
    (l r : List UInt8) :
    sliceFrom (l ++ r) l.length = .ok r := by
  simp [sliceFrom]

@[simp] theorem splitAt_append
    (l r : List UInt8) :
    splitAt (l ++ r) l.length = .ok (l, r) := by
  simp [splitAt]

@[simp] theorem splitAt_length
    (l : List UInt8) :
    splitAt l l.length = .ok (l, []) := by
  simp [splitAt]

/-- How one pass of a loop body ends: at the loop head with new variables, or out with a value. -/
inductive Flow (σ α : Type)
  | next (s : σ)
  | done (a : α)

/-- A loop run for at most `fuel` passes of its body; `none` while it still runs. -/
def Flow.loop
    {σ α : Type}
    (body : σ → Except Fault (Flow σ α)) :
    Nat → σ → Option (Except Fault α)
  | 0, _ => none
  | fuel + 1, s =>
      match body s with
      | .error f => some (.error f)
      | .ok (.done a) => some (.ok a)
      | .ok (.next s') => Flow.loop body fuel s'

section Iterators

variable {σ α : Type} (next : σ → Except Fault (Option α × σ))

/-- The items returned by `count` successive calls of an iterator's `next` from `s`. -/
def nextN : Nat → σ → Except Fault (List (Option α))
  | 0, _ => .ok []
  | count + 1, s =>
      match next s with
      | .error f => .error f
      | .ok (item, s') => (nextN count s').map (item :: ·)

/-- The iterator returns `xs`, then `none` forever, and never faults: call `i` returns `xs[i]?`. -/
def Yields
    (s : σ)
    (xs : List α) :
    Prop :=
  ∀ count, nextN next count s = .ok ((List.range count).map fun i => xs[i]?)

variable {next}

theorem yields_cons
    {s s' : σ}
    {x : α}
    {xs : List α}
    (h : next s = .ok (some x, s'))
    (hy : Yields next s' xs) :
    Yields next s (x :: xs) := by
  intro count
  cases count with
  | zero =>
      rfl
  | succ count =>
      simp [nextN, h, hy count, Except.map, List.range_succ_eq_map]

theorem yields_nil_of_fixed
    {s : σ}
    (h : next s = .ok (none, s)) :
    Yields next s ([] : List α) := by
  intro count
  induction count with
  | zero =>
      rfl
  | succ count ih =>
      simp only [List.getElem?_nil, List.map_const'] at ih ⊢
      simp [nextN, h, ih, Except.map, List.replicate_succ]

theorem yields_nil_of_none
    {s s' : σ}
    (h : next s = .ok (none, s'))
    (hy : Yields next s' ([] : List α)) :
    Yields next s [] := by
  intro count
  cases count with
  | zero =>
      rfl
  | succ count =>
      have hc := hy count
      simp only [List.getElem?_nil, List.map_const'] at hc ⊢
      simp [nextN, h, hc, Except.map, List.replicate_succ]

end Iterators

end UefiDevicePath
