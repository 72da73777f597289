import UefiDevicePath.Runtime

/-!
# UEFI device paths: headers and nodes

A node is a packed 4-byte `DevicePathHeader` (type tag, subtype tag, little-endian
`u16` length that counts the header) followed by its payload.

**Decoding.**  `DevicePathNode.fromFfiPtr` is `DevicePathNode::from_ffi_ptr`: it
reads the header at a pointer, computes the payload length
`usize::from(header.length) - size_of::<DevicePathHeader>()` and makes a reference
over header and payload.  `DevicePathNode.tryFrom` is the safe
`<&DevicePathNode>::try_from(&[u8])`: it checks that the slice holds a header and
that the declared length fits in the slice, then calls `from_ffi_ptr`.

**Results.**
* `fromFfiPtr_eq_ok_iff`: `from_ffi_ptr` returns exactly the node whose bytes the
  memory holds at the pointer, and reads no byte past it.
* `tryFrom_eq_ok_iff`: the safe constructor returns exactly the node whose bytes
  start the slice.
* `eq_iff_toBytes_eq`: `PartialEq for DevicePathNode` holds exactly when the two nodes'
  bytes are equal.
* `tryFrom_of_length_lt_size`: a header whose length field is below the header size
  passes both checks of the safe constructor and reaches the subtraction of
  `from_ffi_ptr`, which underflows.
-/

namespace UefiDevicePath

/-- `DeviceType`: the type tag of a node, a `u8` newtype. -/
structure DeviceType where
  val : UInt8
deriving DecidableEq, Repr

/-- `DeviceSubType`: the subtype tag of a node, a `u8` newtype. -/
structure DeviceSubType where
  val : UInt8
deriving DecidableEq, Repr

/-- `DeviceType::END` and `DeviceSubType::END_ENTIRE`: constants of `uefi_raw`, so parameters. -/
structure EndTags where
  END : DeviceType
  END_ENTIRE : DeviceSubType

/-- `DevicePathHeader`: the header at the start of every node. -/
structure DevicePathHeader where
  deviceType : DeviceType
  subType : DeviceSubType
  /-- Size in bytes of the whole node, this header included. -/
  length : UInt16
deriving DecidableEq, Repr

namespace DevicePathHeader

/-- `size_of::<DevicePathHeader>()`: the packed header is four bytes. -/
def size : Nat := 4

/-- `u16::from_le_bytes([lo, hi])`. -/
def u16FromLeBytes
    (lo hi : UInt8) :
    UInt16 := UInt16.ofNat (lo.toNat + 256 * hi.toNat)

/-- The header that the packed cast reads from the first four bytes. -/
def ofBytes
    (bytes : List UInt8) :
    DevicePathHeader :=
  ⟨⟨bytes.getD 0 0⟩, ⟨bytes.getD 1 0⟩, u16FromLeBytes (bytes.getD 2 0) (bytes.getD 3 0)⟩

/-- The four bytes of a header in memory, its length little-endian. -/
def toBytes
    (h : DevicePathHeader) :
    List UInt8 :=
  [h.deviceType.val, h.subType.val,
    UInt8.ofNat (h.length.toNat % 256), UInt8.ofNat (h.length.toNat / 256)]

/-- `<&DevicePathHeader>::try_from`. -/
def tryFrom
    (bytes : List UInt8) :
    Except Fault DevicePathHeader :=
  if size ≤ bytes.length then .ok (ofBytes bytes) else .error (.err .invalidLength)

@[simp] theorem length_toBytes
    (h : DevicePathHeader) :
    h.toBytes.length = size := rfl

theorem u16FromLeBytes_toNat
    (lo hi : UInt8) :
    (u16FromLeBytes lo hi).toNat = lo.toNat + 256 * hi.toNat := by
  have hlo := lo.toNat_lt_size
  have hhi := hi.toNat_lt_size
  exact UInt16.toNat_ofNat_of_lt (by simp only [UInt8.size, UInt16.size] at *; omega)

theorem ofBytes_toBytes_append
    (h : DevicePathHeader)
    (rest : List UInt8) :
    ofBytes (h.toBytes ++ rest) = h := by
  have hlen := h.length.toNat_lt_size
  simp only [UInt16.size] at hlen
  have hlo : (UInt8.ofNat (h.length.toNat % 256)).toNat = h.length.toNat % 256 :=
    UInt8.toNat_ofNat_of_lt (by simp only [UInt8.size]; omega)
  have hhi : (UInt8.ofNat (h.length.toNat / 256)).toNat = h.length.toNat / 256 :=
    UInt8.toNat_ofNat_of_lt (by simp only [UInt8.size]; omega)
  have hl : u16FromLeBytes (UInt8.ofNat (h.length.toNat % 256))
      (UInt8.ofNat (h.length.toNat / 256)) = h.length :=
    UInt16.toNat.inj (by rw [u16FromLeBytes_toNat, hlo, hhi]; omega)
  simp [ofBytes, toBytes, hl]

theorem toBytes_ofBytes
    {bytes : List UInt8}
    (h : bytes.length = size) :
    (ofBytes bytes).toBytes = bytes := by
  match bytes, h with
  | [t, s, lo, hi], _ =>
      have hlo := lo.toNat_lt_size
      have hhi := hi.toNat_lt_size
      simp only [UInt8.size] at hlo hhi
      have hmod : (lo.toNat + 256 * hi.toNat) % 256 = lo.toNat := by omega
      have hdiv : (lo.toNat + 256 * hi.toNat) / 256 = hi.toNat := by omega
      simp [ofBytes, toBytes, u16FromLeBytes_toNat, hmod, hdiv,
        UInt8.toNat.inj (UInt8.toNat_ofNat_of_lt lo.toNat_lt_size),
        UInt8.toNat.inj (UInt8.toNat_ofNat_of_lt hi.toNat_lt_size)]

/-- The header cast reads only the first four bytes. -/
theorem ofBytes_take
    (bytes : List UInt8) :
    ofBytes (bytes.take size) = ofBytes bytes := by
  simp [ofBytes, size, List.getD_eq_getElem?_getD, List.getElem?_take]

end DevicePathHeader

/-- `DevicePathNode`: a header and a payload of `usize::from(header.length) - 4` bytes. -/
structure DevicePathNode where
  header : DevicePathHeader
  data : List UInt8
  length_eq : header.length.toNat = DevicePathHeader.size + data.length
deriving DecidableEq

namespace DevicePathNode

/-- `DevicePathNode::device_type`. -/
def deviceType
    (node : DevicePathNode) :
    DeviceType := node.header.deviceType

/-- `DevicePathNode::sub_type`. -/
def subType
    (node : DevicePathNode) :
    DeviceSubType := node.header.subType

/-- `DevicePathNode::full_type`. -/
def fullType
    (node : DevicePathNode) :
    DeviceType × DeviceSubType :=
  (node.header.deviceType, node.header.subType)

/-- `DevicePathNode::length`: size of the whole node, header included. -/
def length
    (node : DevicePathNode) :
    UInt16 := node.header.length

/-- `DevicePathNode::is_end_entire`. -/
def isEndEntire
    (tags : EndTags)
    (node : DevicePathNode) :
    Bool :=
  decide (node.fullType = (tags.END, tags.END_ENTIRE))

/-- The bytes of a node in memory: its header, then its payload. -/
def toBytes
    (node : DevicePathNode) :
    List UInt8 := node.header.toBytes ++ node.data

/-- `DevicePathNode::from_ffi_ptr`: the header at `ptr`, then a reference over the node. -/
def fromFfiPtr
    (m : Memory)
    (ptr : Nat) :
    Except Fault DevicePathNode :=
  match m.read ptr DevicePathHeader.size with
  | none => .error .invalidRead
  | some bytes =>
      let header := DevicePathHeader.ofBytes bytes
      if hlen : header.length.toNat < DevicePathHeader.size then
        .error (.panic .subtractWithOverflow)
      else
        match hdata : m.read (ptr + DevicePathHeader.size)
            (header.length.toNat - DevicePathHeader.size) with
        | none => .error .invalidRead
        | some data => .ok ⟨header, data, by rw [Memory.read_length hdata]; omega⟩

/-- `<&DevicePathNode>::try_from`. -/
def tryFrom
    (bytes : List UInt8) :
    Except Fault DevicePathNode := do
  let dp ← DevicePathHeader.tryFrom bytes
  if dp.length.toNat ≤ bytes.length then fromFfiPtr (Memory.ofBytes bytes) 0
  else throw (.err .invalidLength)

/-- `PartialEq for DevicePathNode`: equal headers and equal payloads. -/
def eq
    (a b : DevicePathNode) :
    Bool := a.header == b.header && a.data == b.data

@[ext] theorem ext
    {a b : DevicePathNode}
    (hh : a.header = b.header)
    (hd : a.data = b.data) :
    a = b := by
  cases a; cases b; cases hh; cases hd; rfl

@[simp] theorem length_toBytes
    (node : DevicePathNode) :
    node.toBytes.length = node.length.toNat := by
  simp [toBytes, length, node.length_eq]

theorem toBytes_ne_nil
    (node : DevicePathNode) :
    node.toBytes ≠ [] := by
  simp [toBytes, DevicePathHeader.toBytes]

theorem size_le_length
    (node : DevicePathNode) :
    DevicePathHeader.size ≤ node.length.toNat := by
  simp [length, node.length_eq]

theorem deviceType_eq_of_isEndEntire
    {tags : EndTags}
    {node : DevicePathNode}
    (h : node.isEndEntire tags = true) :
    node.deviceType = tags.END := by
  simp only [isEndEntire, fullType, decide_eq_true_eq, Prod.mk.injEq] at h
  exact h.1

/-- `from_ffi_ptr` returns exactly the node whose bytes the memory holds at `ptr`. -/
theorem fromFfiPtr_eq_ok_iff
    {m : Memory}
    {ptr : Nat}
    {node : DevicePathNode} :
    fromFfiPtr m ptr = .ok node ↔ m.Holds ptr node.toBytes := by
  constructor
  · intro h
    unfold fromFfiPtr at h
    split at h
    · cases h
    · rename_i bytes hbytes
      have hlen := Memory.read_length hbytes
      dsimp only at h
      split at h
      · cases h
      · split at h
        · cases h
        · rename_i data hdata
          cases h
          rw [toBytes, DevicePathHeader.toBytes_ofBytes hlen, Memory.holds_append, hlen]
          exact ⟨Memory.holds_of_read hbytes, Memory.holds_of_read hdata⟩
  · intro h
    obtain ⟨hh, hd⟩ := Memory.holds_append.1 h
    have hof := DevicePathHeader.ofBytes_toBytes_append node.header []
    rw [List.append_nil] at hof
    have hread : m.read ptr DevicePathHeader.size = some node.header.toBytes := by
      simpa using Memory.read_of_holds hh (le_refl _)
    have hdata : m.read (ptr + DevicePathHeader.size)
        ((DevicePathHeader.ofBytes node.header.toBytes).length.toNat -
          DevicePathHeader.size) = some node.data := by
      rw [hof, node.length_eq, Nat.add_sub_cancel_left]
      simpa using Memory.read_of_holds hd (le_refl _)
    unfold fromFfiPtr
    rw [hread]
    dsimp only
    rw [dif_neg (by simpa [hof, length] using node.size_le_length)]
    split
    · rename_i hnone
      rw [hdata] at hnone
      cases hnone
    · rename_i data hsome
      rw [hdata] at hsome
      cases hsome
      exact congrArg Except.ok (ext hof rfl)

/-- The header the cast reads from a slice that starts with a node is that node's. -/
theorem ofBytes_eq_header
    {node : DevicePathNode}
    {bytes : List UInt8}
    (h : node.toBytes <+: bytes) :
    DevicePathHeader.ofBytes bytes = node.header := by
  obtain ⟨rest, rfl⟩ := h
  rw [toBytes, List.append_assoc, DevicePathHeader.ofBytes_toBytes_append]

/-- Two nodes compare equal exactly when their bytes in memory are equal. -/
theorem eq_iff_toBytes_eq
    {a b : DevicePathNode} :
    a.eq b = true ↔ a.toBytes = b.toBytes := by
  simp only [eq, Bool.and_eq_true, beq_iff_eq]
  constructor
  · rintro ⟨hh, hd⟩
    rw [toBytes, toBytes, hh, hd]
  · intro h
    have hh : a.header = b.header := by
      rw [← ofBytes_eq_header (List.prefix_refl a.toBytes), h,
        ofBytes_eq_header (List.prefix_refl b.toBytes)]
    rw [toBytes, toBytes, hh] at h
    exact ⟨hh, List.append_cancel_left h⟩

/-- The two checks of the safe constructor, then `from_ffi_ptr` over the slice. -/
theorem tryFrom_eq
    (bytes : List UInt8) :
    tryFrom bytes =
      if DevicePathHeader.size ≤ bytes.length ∧
          (DevicePathHeader.ofBytes bytes).length.toNat ≤ bytes.length then
        fromFfiPtr (Memory.ofBytes bytes) 0
      else .error (.err .invalidLength) := by
  by_cases hs : DevicePathHeader.size ≤ bytes.length <;>
    simp [tryFrom, DevicePathHeader.tryFrom, hs] <;> rfl

/-- The safe constructor returns exactly the node whose bytes start the slice. -/
theorem tryFrom_eq_ok_iff
    {bytes : List UInt8}
    {node : DevicePathNode} :
    tryFrom bytes = .ok node ↔ node.toBytes <+: bytes := by
  rw [tryFrom_eq]
  split
  · rw [fromFfiPtr_eq_ok_iff, Memory.holds_ofBytes_iff, List.drop_zero]
  · rename_i hcheck
    refine ⟨(fun h => by cases h), fun h => absurd ?_ hcheck⟩
    have hlen := h.length_le
    rw [ofBytes_eq_header h]
    have := node.size_le_length
    simp only [length_toBytes, length] at hlen this ⊢
    omega

theorem tryFrom_of_lt
    {bytes : List UInt8}
    (h : bytes.length < DevicePathHeader.size ∨
      bytes.length < (DevicePathHeader.ofBytes bytes).length.toNat) :
    tryFrom bytes = .error (.err .invalidLength) := by
  rw [tryFrom_eq, if_neg (by omega)]

/-- A length field below the header size passes both checks and underflows. -/
theorem tryFrom_of_length_lt_size
    {bytes : List UInt8}
    (hb : DevicePathHeader.size ≤ bytes.length)
    (hl : (DevicePathHeader.ofBytes bytes).length.toNat < DevicePathHeader.size) :
    tryFrom bytes = .error (.panic .subtractWithOverflow) := by
  rw [tryFrom_eq, if_pos ⟨hb, by omega⟩]
  unfold fromFfiPtr
  rw [Memory.read_of_holds (Memory.holds_ofBytes bytes) hb]
  simp only [DevicePathHeader.ofBytes_take, dif_pos hl]

theorem tryFrom_zero_length_panics :
    tryFrom [0xa0, 0xb0, 0x00, 0x00] = .error (.panic .subtractWithOverflow) := by
  rfl

/-- A declared length from the header size to the slice length: a node, returned. -/
theorem tryFrom_of_le
    {bytes : List UInt8}
    (hl : DevicePathHeader.size ≤ (DevicePathHeader.ofBytes bytes).length.toNat)
    (hb : (DevicePathHeader.ofBytes bytes).length.toNat ≤ bytes.length) :
    ∃ node, node.toBytes <+: bytes ∧ tryFrom bytes = .ok node := by
  have hhead : (DevicePathHeader.ofBytes bytes).toBytes = bytes.take DevicePathHeader.size := by
    rw [← DevicePathHeader.ofBytes_take,
      DevicePathHeader.toBytes_ofBytes (by rw [List.length_take]; omega)]
  have hlen : (DevicePathHeader.ofBytes bytes).length.toNat = DevicePathHeader.size +
      ((bytes.drop DevicePathHeader.size).take
        ((DevicePathHeader.ofBytes bytes).length.toNat - DevicePathHeader.size)).length := by
    simp only [List.length_take, List.length_drop]
    omega
  have hpre : DevicePathNode.toBytes ⟨_, _, hlen⟩ <+: bytes := by
    rw [toBytes, hhead, ← List.take_add, Nat.add_sub_cancel' hl]
    exact List.take_prefix _ _
  exact ⟨_, hpre, tryFrom_eq_ok_iff.2 hpre⟩

end DevicePathNode

end UefiDevicePath
