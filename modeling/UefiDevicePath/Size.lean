import UefiDevicePath.Path
import Mathlib.Logic.Relation

/-!
# UEFI device paths: the size of a path

A device path does not store its size: it is the sum of its node lengths up to and
including the END_ENTIRE terminator, found by walking the path.  The source has two
walks.

* `DevicePath::size_in_bytes_from_slice` walks a slice with the safe node
  constructor and fails with `InvalidLength` when a node does not fit.  Its loop is
  `sizeInBytesFromSliceBody` (one pass, from loop head to loop head) iterated by
  `sizeInBytesFromSliceLoop`; `<&DevicePath>::try_from` is built on it.
* `DevicePath::size_in_bytes_from_ptr` walks raw memory with `from_ffi_ptr` and no
  bound at all.  It need not end, so `DevicePath.sizeInBytesFromPtr` runs its loop
  for a given number of passes; `DevicePath::from_ffi_ptr` is built on it.

**Results.**
* `sizeInBytesFromSlice_loop_invariant`: at the head of every pass of the
  bounds-checked loop, the window and the running total add up to the slice length;
  so the `total > max` branch is never taken and the slicing never panics.
* `sizeInBytesFromSlice_cases`: on every slice the walk passes nodes that do not end
  the path and then returns the size with the terminator, fails with `InvalidLength`,
  or panics on a length field below the header size; nothing else.
* `sizeInBytesFromSlice_eq_ok_iff`, `tryFrom_eq_ok_iff_wellFormed`: the bounds-checked
  walk succeeds exactly on slices that start with a well-formed path, with its size.
* `tryFrom_zero_length_header_panics`: a header whose length field is below the
  header size makes the safe `try_from` panic.
* `fromFfiPtr_eq_some_ok_iff`: the trusted constructor returns a path exactly on
  memory that holds a well-formed one at the pointer, and returns that one.
* `tryFrom_eq_ok_iff_fromFfiPtr`: on a slice, the safe and the trusted constructor
  return a path in the same cases, and the same path.
* `sizeInBytes_ptr_eq_slice`: on a well-formed path both walks end with the same
  size, the trusted one reads nothing past the path, and both constructors build
  the same path.
-/

namespace UefiDevicePath

/-- The variables of the loop of `size_in_bytes_from_slice` at its head. -/
structure SliceWalk where
  bytes : List UInt8
  totalSizeInBytes : Nat
deriving DecidableEq, Repr

/-- One pass of the loop of `size_in_bytes_from_slice` on a slice of `maxSizeInBytes` bytes. -/
def sizeInBytesFromSliceBody
    (tags : EndTags)
    (maxSizeInBytes : Nat)
    (s : SliceWalk) :
    Except Fault (Flow SliceWalk Nat) := do
  let node ← DevicePathNode.tryFrom s.bytes
  let nodeSizeInBytes := node.length.toNat
  let totalSizeInBytes := s.totalSizeInBytes + nodeSizeInBytes
  if totalSizeInBytes > maxSizeInBytes then throw (.err .invalidLength)
  else if node.isEndEntire tags then pure (.done totalSizeInBytes)
  else do
    let bytes ← sliceFrom s.bytes nodeSizeInBytes
    pure (.next ⟨bytes, totalSizeInBytes⟩)

section SliceBody

variable {tags : EndTags} {maxSizeInBytes : Nat} {s : SliceWalk}

/-- One pass once the node at the head of the window is decoded. -/
theorem sizeInBytesFromSliceBody_of_tryFrom
    {node : DevicePathNode}
    (h : DevicePathNode.tryFrom s.bytes = .ok node) :
    sizeInBytesFromSliceBody tags maxSizeInBytes s =
      if s.totalSizeInBytes + node.length.toNat > maxSizeInBytes then .error (.err .invalidLength)
      else if node.isEndEntire tags then .ok (.done (s.totalSizeInBytes + node.length.toNat))
      else
        .ok (.next ⟨s.bytes.drop node.length.toNat, s.totalSizeInBytes + node.length.toNat⟩) := by
  have hle : node.length.toNat ≤ s.bytes.length := by
    simpa using (DevicePathNode.tryFrom_eq_ok_iff.1 h).length_le
  have hs : sliceFrom s.bytes node.length.toNat = .ok (s.bytes.drop node.length.toNat) :=
    sliceFrom_eq_ok.2 ⟨hle, rfl⟩
  simp only [sizeInBytesFromSliceBody, h, hs, bind, Except.bind, pure, Except.pure, throw,
    throwThe, MonadExceptOf.throw]

theorem sizeInBytesFromSliceBody_of_tryFrom_error
    {f : Fault}
    (h : DevicePathNode.tryFrom s.bytes = .error f) :
    sizeInBytesFromSliceBody tags maxSizeInBytes s = .error f := by
  simp [sizeInBytesFromSliceBody, h, bind, Except.bind]

/-- One pass on a window that starts with a node, the total within the slice. -/
theorem sizeInBytesFromSliceBody_toBytes_append
    (tags : EndTags)
    (maxSizeInBytes : Nat)
    (node : DevicePathNode)
    (rest : List UInt8)
    (total : Nat)
    (hmax : total + node.length.toNat ≤ maxSizeInBytes) :
    sizeInBytesFromSliceBody tags maxSizeInBytes ⟨node.toBytes ++ rest, total⟩ =
      .ok (if node.isEndEntire tags then .done (total + node.length.toNat)
        else .next ⟨rest, total + node.length.toNat⟩) := by
  rw [sizeInBytesFromSliceBody_of_tryFrom (s := ⟨_, total⟩)
    (DevicePathNode.tryFrom_eq_ok_iff.2 (List.prefix_append _ _)), if_neg (Nat.not_lt.2 hmax)]
  dsimp only
  rw [List.drop_left' node.length_toBytes]
  split <;> rfl

/-- A pass that goes on moved past a node that is not the terminator. -/
theorem sizeInBytesFromSliceBody_eq_next
    {s' : SliceWalk}
    (h : sizeInBytesFromSliceBody tags maxSizeInBytes s = .ok (.next s')) :
    ∃ node, DevicePathNode.tryFrom s.bytes = .ok node ∧ node.isEndEntire tags = false ∧
      s.totalSizeInBytes + node.length.toNat ≤ maxSizeInBytes ∧
      s' = ⟨s.bytes.drop node.length.toNat, s.totalSizeInBytes + node.length.toNat⟩ := by
  cases hn : DevicePathNode.tryFrom s.bytes with
  | error f =>
      rw [sizeInBytesFromSliceBody_of_tryFrom_error hn] at h
      cases h
  | ok node =>
      rw [sizeInBytesFromSliceBody_of_tryFrom hn] at h
      refine ⟨node, rfl, ?_⟩
      split_ifs at h with h1 h2 <;> cases h
      exact ⟨by simpa using h2, by omega, rfl⟩

theorem sizeInBytesFromSliceBody_next_length_lt
    {s' : SliceWalk}
    (h : sizeInBytesFromSliceBody tags maxSizeInBytes s = .ok (.next s')) :
    s'.bytes.length < s.bytes.length := by
  obtain ⟨node, hn, -, -, rfl⟩ := sizeInBytesFromSliceBody_eq_next h
  have hle := (DevicePathNode.tryFrom_eq_ok_iff.1 hn).length_le
  have hsize := node.size_le_length
  simp only [DevicePathNode.length_toBytes, DevicePathHeader.size] at hle hsize
  simp only [List.length_drop]
  omega

end SliceBody

/-- The loop of `size_in_bytes_from_slice`, from a loop head on. -/
def sizeInBytesFromSliceLoop
    (tags : EndTags)
    (maxSizeInBytes : Nat)
    (s : SliceWalk) :
    Except Fault Nat :=
  match _h : sizeInBytesFromSliceBody tags maxSizeInBytes s with
  | .error f => .error f
  | .ok (.done totalSizeInBytes) => .ok totalSizeInBytes
  | .ok (.next s') => sizeInBytesFromSliceLoop tags maxSizeInBytes s'
termination_by s.bytes.length
decreasing_by exact sizeInBytesFromSliceBody_next_length_lt _h

/-- `DevicePath::size_in_bytes_from_slice`. -/
def DevicePath.sizeInBytesFromSlice
    (tags : EndTags)
    (bytes : List UInt8) :
    Except Fault Nat :=
  sizeInBytesFromSliceLoop tags bytes.length ⟨bytes, 0⟩

/-- `<&DevicePath>::try_from`: the size of the path, then a reference over that many bytes. -/
def DevicePath.tryFrom
    (tags : EndTags)
    (bytes : List UInt8) :
    Except Fault DevicePath := do
  let len ← DevicePath.sizeInBytesFromSlice tags bytes
  match (Memory.ofBytes bytes).read 0 len with
  | some data => pure ⟨data⟩
  | none => throw .invalidRead

section SliceLoop

variable {tags : EndTags} {maxSizeInBytes : Nat} {s : SliceWalk}

theorem sizeInBytesFromSliceLoop_of_next
    {s' : SliceWalk}
    (h : sizeInBytesFromSliceBody tags maxSizeInBytes s = .ok (.next s')) :
    sizeInBytesFromSliceLoop tags maxSizeInBytes s =
      sizeInBytesFromSliceLoop tags maxSizeInBytes s' := by
  rw [sizeInBytesFromSliceLoop]
  split <;> rename_i hb <;> rw [h] at hb <;> cases hb
  rfl

theorem sizeInBytesFromSliceLoop_of_done
    {n : Nat}
    (h : sizeInBytesFromSliceBody tags maxSizeInBytes s = .ok (.done n)) :
    sizeInBytesFromSliceLoop tags maxSizeInBytes s = .ok n := by
  rw [sizeInBytesFromSliceLoop]
  split <;> rename_i hb <;> rw [h] at hb <;> cases hb
  rfl

theorem sizeInBytesFromSliceLoop_of_error
    {f : Fault}
    (h : sizeInBytesFromSliceBody tags maxSizeInBytes s = .error f) :
    sizeInBytesFromSliceLoop tags maxSizeInBytes s = .error f := by
  rw [sizeInBytesFromSliceLoop]
  split <;> rename_i hb <;> rw [h] at hb <;> cases hb
  rfl

end SliceLoop

/-- One pass of the loop of `size_in_bytes_from_slice`, from loop head `s` to loop head `s'`. -/
def SliceWalk.Continues
    (tags : EndTags)
    (maxSizeInBytes : Nat)
    (s s' : SliceWalk) :
    Prop :=
  sizeInBytesFromSliceBody tags maxSizeInBytes s = .ok (.next s')

/-- The loop invariant: the window and the running total add up to the slice length. -/
def SliceWalk.Inv
    (maxSizeInBytes : Nat)
    (s : SliceWalk) :
    Prop :=
  s.bytes.length + s.totalSizeInBytes = maxSizeInBytes

namespace SliceWalk

variable {tags : EndTags} {maxSizeInBytes : Nat}

theorem inv_of_continues
    {s s' : SliceWalk}
    (h : Continues tags maxSizeInBytes s s')
    (hi : Inv maxSizeInBytes s) :
    Inv maxSizeInBytes s' := by
  obtain ⟨node, hn, -, -, rfl⟩ := sizeInBytesFromSliceBody_eq_next h
  have hle := (DevicePathNode.tryFrom_eq_ok_iff.1 hn).length_le
  simp only [Inv, List.length_drop, DevicePathNode.length_toBytes] at hi hle ⊢
  omega

theorem inv_of_reachable
    {b : List UInt8}
    {s : SliceWalk}
    (h : Relation.ReflTransGen (Continues tags b.length) ⟨b, 0⟩ s) :
    Inv b.length s := by
  induction h with
  | refl =>
      rfl
  | tail _ hstep ih =>
      exact inv_of_continues hstep ih

end SliceWalk

/-- The invariant at every reachable loop head, and the checks it makes dead. -/
theorem sizeInBytesFromSlice_loop_invariant
    {tags : EndTags}
    (b : List UInt8)
    (s : SliceWalk)
    (hs : Relation.ReflTransGen (SliceWalk.Continues tags b.length) ⟨b, 0⟩ s) :
    s.bytes.length + s.totalSizeInBytes = b.length ∧
      (∀ node, DevicePathNode.tryFrom s.bytes = .ok node →
        s.totalSizeInBytes + node.length.toNat ≤ b.length ∧
          node.length.toNat ≤ s.bytes.length) ∧
      (sizeInBytesFromSliceBody tags b.length s = .error (.err .invalidLength) →
        DevicePathNode.tryFrom s.bytes = .error (.err .invalidLength)) := by
  have hinv : s.bytes.length + s.totalSizeInBytes = b.length := SliceWalk.inv_of_reachable hs
  have hfit : ∀ node, DevicePathNode.tryFrom s.bytes = .ok node →
      s.totalSizeInBytes + node.length.toNat ≤ b.length ∧ node.length.toNat ≤ s.bytes.length := by
    intro node hn
    have hle := (DevicePathNode.tryFrom_eq_ok_iff.1 hn).length_le
    simp only [DevicePathNode.length_toBytes] at hle
    omega
  refine ⟨hinv, hfit, fun hb => ?_⟩
  cases hn : DevicePathNode.tryFrom s.bytes with
  | error f =>
      rw [sizeInBytesFromSliceBody_of_tryFrom_error hn] at hb
      cases hb
      rfl
  | ok node =>
      rw [sizeInBytesFromSliceBody_of_tryFrom hn, if_neg (by have := (hfit node hn).1; omega)] at hb
      split_ifs at hb

theorem sizeInBytesFromSlice_loop_invariant_after_first_node :
    let tags : EndTags := ⟨⟨0x7f⟩, ⟨0xff⟩⟩
    let b : List UInt8 := [0xa0, 0xb0, 6, 0, 10, 11, 0x7f, 0xff, 4, 0]
    Relation.ReflTransGen (SliceWalk.Continues tags b.length) ⟨b, 0⟩ ⟨b.drop 6, 6⟩ ∧
      ((b.drop 6).length + 6 = b.length ∧
        (∀ node, DevicePathNode.tryFrom (b.drop 6) = .ok node →
          6 + node.length.toNat ≤ b.length ∧ node.length.toNat ≤ (b.drop 6).length) ∧
        (sizeInBytesFromSliceBody tags b.length ⟨b.drop 6, 6⟩ = .error (.err .invalidLength) →
          DevicePathNode.tryFrom (b.drop 6) = .error (.err .invalidLength))) := by
  intro tags b
  have hs : Relation.ReflTransGen (SliceWalk.Continues tags b.length) ⟨b, 0⟩ ⟨b.drop 6, 6⟩ :=
    .single rfl
  exact ⟨hs, sizeInBytesFromSlice_loop_invariant b ⟨b.drop 6, 6⟩ hs⟩

section SliceWalks

variable {tags : EndTags}

/-- The bounds-checked walk over nodes in a row sums their lengths to the terminator. -/
theorem sizeInBytesFromSliceLoop_nodesToBytes
    {init : List DevicePathNode}
    {last : DevicePathNode}
    (hinit : ∀ node ∈ init, node.isEndEntire tags = false)
    (hlast : last.isEndEntire tags = true)
    (rest : List UInt8)
    (maxSizeInBytes totalSizeInBytes : Nat)
    (hmax : totalSizeInBytes + (nodesToBytes (init ++ [last])).length ≤ maxSizeInBytes) :
    sizeInBytesFromSliceLoop tags maxSizeInBytes
        ⟨nodesToBytes init ++ last.toBytes ++ rest, totalSizeInBytes⟩ =
      .ok (totalSizeInBytes + (nodesToBytes (init ++ [last])).length) := by
  induction init generalizing totalSizeInBytes with
  | nil =>
      simp only [nodesToBytes_nil, List.nil_append, List.singleton_append, nodesToBytes_cons,
        List.append_nil, DevicePathNode.length_toBytes] at hmax ⊢
      have hbody := sizeInBytesFromSliceBody_toBytes_append tags maxSizeInBytes last rest _ hmax
      rw [if_pos hlast] at hbody
      exact sizeInBytesFromSliceLoop_of_done hbody
  | cons node init ih =>
      simp only [List.mem_cons, forall_eq_or_imp] at hinit
      have hlen : (nodesToBytes (node :: init ++ [last])).length =
          node.length.toNat + (nodesToBytes (init ++ [last])).length := by
        simp
      have hbody := sizeInBytesFromSliceBody_toBytes_append tags maxSizeInBytes node
        (nodesToBytes init ++ last.toBytes ++ rest) totalSizeInBytes (by omega)
      rw [if_neg (by simp [hinit.1])] at hbody
      rw [show nodesToBytes (node :: init) ++ last.toBytes ++ rest =
          node.toBytes ++ (nodesToBytes init ++ last.toBytes ++ rest) by simp,
        sizeInBytesFromSliceLoop_of_next hbody, ih hinit.2 _ (by omega), hlen, Nat.add_assoc]

/-- On a slice that starts with a well-formed path the walk returns the path's size. -/
theorem sizeInBytesFromSlice_toBytes_append
    (w : WellFormedPath tags)
    (rest : List UInt8) :
    DevicePath.sizeInBytesFromSlice tags (w.toBytes ++ rest) = .ok w.toBytes.length := by
  have h := sizeInBytesFromSliceLoop_nodesToBytes w.init_not_isEndEntire w.last_isEndEntire rest
    (w.toBytes ++ rest).length 0
    (by simp [WellFormedPath.toBytes, WellFormedPath.nodes])
  simpa [DevicePath.sizeInBytesFromSlice, WellFormedPath.toBytes, WellFormedPath.nodes] using h

/-- How the walk ends at window `r` with total `t`: the terminator, `InvalidLength`, or a panic. -/
def SliceWalk.Ends
    (tags : EndTags)
    (r : List UInt8)
    (t : Nat)
    (result : Except Fault Nat) :
    Prop :=
  (∃ last : DevicePathNode, last.isEndEntire tags = true ∧ last.toBytes <+: r ∧
      result = .ok (t + last.length.toNat)) ∨
    ((r.length < DevicePathHeader.size ∨
        r.length < (DevicePathHeader.ofBytes r).length.toNat) ∧
      result = .error (.err .invalidLength)) ∨
    (DevicePathHeader.size ≤ r.length ∧
      (DevicePathHeader.ofBytes r).length.toNat < DevicePathHeader.size ∧
      result = .error (.panic .subtractWithOverflow))

/-- Every run from a head within the slice passes nodes, then ends as `SliceWalk.Ends` says. -/
theorem sizeInBytesFromSliceLoop_cases
    (tags : EndTags)
    {maxSizeInBytes : Nat}
    (s : SliceWalk)
    (hmax : s.totalSizeInBytes + s.bytes.length ≤ maxSizeInBytes) :
    ∃ init : List DevicePathNode, (∀ node ∈ init, node.isEndEntire tags = false) ∧
      nodesToBytes init <+: s.bytes ∧
      SliceWalk.Ends tags (s.bytes.drop (nodesToBytes init).length)
        (s.totalSizeInBytes + (nodesToBytes init).length)
        (sizeInBytesFromSliceLoop tags maxSizeInBytes s) := by
  obtain ⟨k, hk⟩ : ∃ k, s.bytes.length = k := ⟨_, rfl⟩
  induction k using Nat.strong_induction_on generalizing s with
  | _ k ih =>
      obtain ⟨bytes, total⟩ := s
      dsimp only at hmax hk ⊢
      refine if hshort : bytes.length < DevicePathHeader.size ∨
          bytes.length < (DevicePathHeader.ofBytes bytes).length.toNat then
        ⟨[], by simp, List.nil_prefix, .inr (.inl ⟨by simpa using hshort, ?_⟩)⟩
      else if hlow : (DevicePathHeader.ofBytes bytes).length.toNat < DevicePathHeader.size then
        ⟨[], by simp, List.nil_prefix, .inr (.inr ⟨by simp; omega, by simpa using hlow, ?_⟩)⟩
      else ?_
      · exact sizeInBytesFromSliceLoop_of_error
          (sizeInBytesFromSliceBody_of_tryFrom_error (DevicePathNode.tryFrom_of_lt hshort))
      · exact sizeInBytesFromSliceLoop_of_error (sizeInBytesFromSliceBody_of_tryFrom_error
          (DevicePathNode.tryFrom_of_length_lt_size (by omega : _ ≤ bytes.length) hlow))
      obtain ⟨node, ⟨rest, rfl⟩, -⟩ := DevicePathNode.tryFrom_of_le
        (by omega : DevicePathHeader.size ≤ (DevicePathHeader.ofBytes bytes).length.toNat)
        (by omega)
      have hL := node.length_toBytes
      have hsize := node.size_le_length
      simp only [List.length_append, hL, DevicePathHeader.size] at hmax hk hsize
      have hbody := sizeInBytesFromSliceBody_toBytes_append tags maxSizeInBytes node rest total
        (by omega)
      cases hend : node.isEndEntire tags
      · rw [hend, if_neg Bool.false_ne_true] at hbody
        obtain ⟨init, hinit, hpre, hends⟩ :=
          ih rest.length (by omega) ⟨rest, total + node.length.toNat⟩ (by dsimp only; omega) rfl
        have hlen : (nodesToBytes (node :: init)).length =
            node.toBytes.length + (nodesToBytes init).length := by
          simp only [nodesToBytes_cons, List.length_append]
        refine ⟨node :: init, by simpa [hend] using hinit,
          (List.prefix_append_right_inj _).2 hpre, ?_⟩
        rw [sizeInBytesFromSliceLoop_of_next hbody, hlen, List.drop_append, hL, ← Nat.add_assoc]
        exact hends
      · rw [hend, if_pos rfl] at hbody
        exact ⟨[], by simp, List.nil_prefix, .inl ⟨node, hend, by simp,
          by simpa using sizeInBytesFromSliceLoop_of_done hbody⟩⟩

/-- `size_in_bytes_from_slice` passes non-terminator nodes, then ends in one of three ways. -/
theorem sizeInBytesFromSlice_cases
    (tags : EndTags)
    (bytes : List UInt8) :
    ∃ init : List DevicePathNode, (∀ node ∈ init, node.isEndEntire tags = false) ∧
      nodesToBytes init <+: bytes ∧
      SliceWalk.Ends tags (bytes.drop (nodesToBytes init).length) (nodesToBytes init).length
        (DevicePath.sizeInBytesFromSlice tags bytes) := by
  simpa using sizeInBytesFromSliceLoop_cases tags ⟨bytes, 0⟩ (by simp)

/-- The bounds-checked walk succeeds exactly on slices that start with a well-formed path. -/
theorem sizeInBytesFromSlice_eq_ok_iff
    {bytes : List UInt8}
    {n : Nat} :
    DevicePath.sizeInBytesFromSlice tags bytes = .ok n ↔
      ∃ w : WellFormedPath tags, w.toBytes <+: bytes ∧ n = w.toBytes.length := by
  constructor
  · intro h
    obtain ⟨init, hinit, ⟨r, rfl⟩, hends⟩ :=
      sizeInBytesFromSliceLoop_cases tags ⟨bytes, 0⟩ (Nat.le_of_eq (Nat.zero_add bytes.length))
    rw [DevicePath.sizeInBytesFromSlice] at h
    rw [h, List.drop_left] at hends
    rcases hends with ⟨last, hlast, ⟨rest, rfl⟩, hn⟩ | ⟨-, hn⟩ | ⟨-, -, hn⟩ <;> cases hn
    exact ⟨⟨init, last, hlast, hinit⟩, by simp [WellFormedPath.toBytes, WellFormedPath.nodes],
      by simp [WellFormedPath.toBytes, WellFormedPath.nodes]⟩
  · rintro ⟨w, ⟨rest, rfl⟩, rfl⟩
    exact sizeInBytesFromSlice_toBytes_append w rest

/-- `<&DevicePath>::try_from` over a size the walk found within the slice. -/
theorem DevicePath.tryFrom_of_sizeInBytesFromSlice
    {bytes : List UInt8}
    {len : Nat}
    (h : DevicePath.sizeInBytesFromSlice tags bytes = .ok len)
    (hle : len ≤ bytes.length) :
    DevicePath.tryFrom tags bytes = .ok ⟨bytes.take len⟩ := by
  simp [DevicePath.tryFrom, h, Memory.read_of_holds (Memory.holds_ofBytes bytes) hle, bind,
    Except.bind, pure, Except.pure]

/-- `<&DevicePath>::try_from` on a slice that starts with a well-formed path. -/
theorem DevicePath.tryFrom_toBytes_append
    (w : WellFormedPath tags)
    (rest : List UInt8) :
    DevicePath.tryFrom tags (w.toBytes ++ rest) = .ok w.toDevicePath := by
  rw [DevicePath.tryFrom_of_sizeInBytesFromSlice (sizeInBytesFromSlice_toBytes_append w rest)
    (by simp), List.take_left]
  rfl

/-- A path that `<&DevicePath>::try_from` returns is well formed, at the slice's head. -/
theorem DevicePath.exists_wellFormed_of_tryFrom
    {bytes : List UInt8}
    {p : DevicePath}
    (h : DevicePath.tryFrom tags bytes = .ok p) :
    ∃ w : WellFormedPath tags, w.toBytes <+: bytes ∧ p = w.toDevicePath := by
  cases hs : DevicePath.sizeInBytesFromSlice tags bytes with
  | error f =>
      simp [DevicePath.tryFrom, hs, bind, Except.bind] at h
  | ok len =>
      obtain ⟨w, hpre, rfl⟩ := sizeInBytesFromSlice_eq_ok_iff.1 hs
      rw [DevicePath.tryFrom_of_sizeInBytesFromSlice hs hpre.length_le] at h
      cases h
      exact ⟨w, hpre, by rw [← List.prefix_iff_eq_take.1 hpre]; rfl⟩

/-- `<&DevicePath>::try_from` returns exactly the well-formed path at the slice's head. -/
theorem DevicePath.tryFrom_eq_ok_iff_wellFormed
    {bytes : List UInt8}
    {p : DevicePath} :
    DevicePath.tryFrom tags bytes = .ok p ↔
      ∃ w : WellFormedPath tags, w.toBytes <+: bytes ∧ p = w.toDevicePath := by
  constructor
  · exact DevicePath.exists_wellFormed_of_tryFrom
  · rintro ⟨w, ⟨rest, rfl⟩, rfl⟩
    exact DevicePath.tryFrom_toBytes_append w rest

end SliceWalks

/-- A zero length field makes `<&DevicePath>::try_from` panic, not fail with `InvalidLength`. -/
theorem tryFrom_zero_length_header_panics
    (tags : EndTags) :
    DevicePath.tryFrom tags [0xa0, 0xb0, 0x00, 0x00] = .error (.panic .subtractWithOverflow) := by
  have hnode : DevicePathNode.tryFrom [0xa0, 0xb0, 0x00, 0x00] =
      .error (.panic .subtractWithOverflow) :=
    DevicePathNode.tryFrom_of_length_lt_size (by decide) (by decide)
  have hbody : sizeInBytesFromSliceBody tags 4 ⟨[0xa0, 0xb0, 0x00, 0x00], 0⟩ =
      .error (.panic .subtractWithOverflow) :=
    sizeInBytesFromSliceBody_of_tryFrom_error hnode
  simp [DevicePath.tryFrom, DevicePath.sizeInBytesFromSlice,
    sizeInBytesFromSliceLoop_of_error hbody, bind, Except.bind]

/-- The variables of the loop of `size_in_bytes_from_ptr` at its head. -/
structure PtrWalk where
  ptr : Nat
  totalSizeInBytes : Nat
deriving DecidableEq, Repr

/-- One pass through the loop of `size_in_bytes_from_ptr` over memory `m`. -/
def sizeInBytesFromPtrBody
    (tags : EndTags)
    (m : Memory)
    (s : PtrWalk) :
    Except Fault (Flow PtrWalk Nat) := do
  let node ← DevicePathNode.fromFfiPtr m s.ptr
  let nodeSizeInBytes := node.length.toNat
  let totalSizeInBytes := s.totalSizeInBytes + nodeSizeInBytes
  if node.isEndEntire tags then pure (.done totalSizeInBytes)
  else pure (.next ⟨s.ptr + nodeSizeInBytes, totalSizeInBytes⟩)

/-- `DevicePath::size_in_bytes_from_ptr`, run for at most `fuel` passes; `none` if unfinished. -/
def DevicePath.sizeInBytesFromPtr
    (tags : EndTags)
    (m : Memory)
    (ptr fuel : Nat) :
    Option (Except Fault Nat) :=
  Flow.loop (sizeInBytesFromPtrBody tags m) fuel ⟨ptr, 0⟩

/-- `DevicePath::from_ffi_ptr` through `ptr_from_ffi`: the size, then a reference over it. -/
def DevicePath.fromFfiPtr
    (tags : EndTags)
    (m : Memory)
    (ptr fuel : Nat) :
    Option (Except Fault DevicePath) :=
  (DevicePath.sizeInBytesFromPtr tags m ptr fuel).map fun size => do
    let len ← size
    match m.read ptr len with
    | some data => pure ⟨data⟩
    | none => throw .invalidRead

section PtrWalks

variable {tags : EndTags}

theorem sizeInBytesFromPtrBody_of_fromFfiPtr
    {m : Memory}
    {s : PtrWalk}
    {node : DevicePathNode}
    (h : DevicePathNode.fromFfiPtr m s.ptr = .ok node) :
    sizeInBytesFromPtrBody tags m s =
      .ok (if node.isEndEntire tags then .done (s.totalSizeInBytes + node.length.toNat)
        else .next ⟨s.ptr + node.length.toNat, s.totalSizeInBytes + node.length.toNat⟩) := by
  simp only [sizeInBytesFromPtrBody, h, bind, Except.bind]
  split <;> rfl

/-- Over memory that holds nodes in a row, the trusted walk sums lengths to the terminator. -/
theorem loop_sizeInBytesFromPtrBody
    {init : List DevicePathNode}
    {last : DevicePathNode}
    (hinit : ∀ node ∈ init, node.isEndEntire tags = false)
    (hlast : last.isEndEntire tags = true)
    {m : Memory}
    {ptr : Nat}
    (hm : m.Holds ptr (nodesToBytes init ++ last.toBytes))
    (totalSizeInBytes : Nat)
    {fuel : Nat}
    (hfuel : init.length < fuel) :
    Flow.loop (sizeInBytesFromPtrBody tags m) fuel ⟨ptr, totalSizeInBytes⟩ =
      some (.ok (totalSizeInBytes + (nodesToBytes (init ++ [last])).length)) := by
  obtain ⟨fuel, rfl⟩ : ∃ f, fuel = f + 1 := ⟨fuel - 1, by omega⟩
  induction init generalizing ptr totalSizeInBytes fuel with
  | nil =>
      have hn := DevicePathNode.fromFfiPtr_eq_ok_iff.2 (by simpa using hm)
      rw [Flow.loop, sizeInBytesFromPtrBody_of_fromFfiPtr (s := ⟨ptr, totalSizeInBytes⟩) hn,
        if_pos hlast]
      simp
  | cons node init ih =>
      simp only [List.mem_cons, forall_eq_or_imp] at hinit
      rw [nodesToBytes_cons, List.append_assoc, Memory.holds_append] at hm
      have hn := DevicePathNode.fromFfiPtr_eq_ok_iff.2 hm.1
      obtain ⟨fuel, rfl⟩ : ∃ f, fuel = f + 1 := ⟨fuel - 1, by simp at hfuel; omega⟩
      rw [Flow.loop, sizeInBytesFromPtrBody_of_fromFfiPtr (s := ⟨ptr, totalSizeInBytes⟩) hn,
        if_neg (by simp [hinit.1])]
      dsimp only
      rw [ih hinit.2 (by simpa using hm.2) _ _ (by simpa using hfuel)]
      simp [Nat.add_assoc]

/-- A run of the trusted walk that ends with a size walked a well-formed path. -/
theorem exists_wellFormed_of_loop_sizeInBytesFromPtrBody
    {m : Memory}
    {fuel ptr total n : Nat}
    (h : Flow.loop (sizeInBytesFromPtrBody tags m) fuel ⟨ptr, total⟩ = some (.ok n)) :
    ∃ w : WellFormedPath tags, m.Holds ptr w.toBytes ∧ w.nodes.length ≤ fuel ∧
      n = total + w.toBytes.length := by
  induction fuel generalizing ptr total with
  | zero =>
      cases h
  | succ fuel ih =>
      rw [Flow.loop] at h
      cases hn : DevicePathNode.fromFfiPtr m ptr with
      | error f =>
          simp [sizeInBytesFromPtrBody, hn, bind, Except.bind] at h
      | ok node =>
          have hm := DevicePathNode.fromFfiPtr_eq_ok_iff.1 hn
          rw [sizeInBytesFromPtrBody_of_fromFfiPtr (s := ⟨ptr, total⟩) hn] at h
          cases hend : node.isEndEntire tags
          · simp only [hend, Bool.false_eq_true, if_false] at h
            obtain ⟨w, hw, hlen, rfl⟩ := ih h
            refine ⟨w.cons node hend, ?_, by simpa using hlen, by simp [Nat.add_assoc]⟩
            rw [WellFormedPath.toBytes_cons, Memory.holds_append]
            exact ⟨hm, by simpa using hw⟩
          · simp only [hend, if_true, Option.some.injEq, Except.ok.injEq] at h
            exact ⟨.single node hend, by simpa using hm, by simp, by simp [h]⟩

/-- Over memory that holds a well-formed path, the trusted walk returns its size. -/
theorem sizeInBytesFromPtr_of_holds
    (w : WellFormedPath tags)
    {m : Memory}
    {ptr fuel : Nat}
    (hm : m.Holds ptr w.toBytes)
    (hfuel : w.nodes.length ≤ fuel) :
    DevicePath.sizeInBytesFromPtr tags m ptr fuel = some (.ok w.toBytes.length) := by
  have h : Flow.loop (sizeInBytesFromPtrBody tags m) fuel ⟨ptr, 0⟩ =
      some (.ok (0 + (nodesToBytes (w.init ++ [w.last])).length)) :=
    loop_sizeInBytesFromPtrBody w.init_not_isEndEntire w.last_isEndEntire
      (by simpa [WellFormedPath.toBytes, WellFormedPath.nodes] using hm) 0
      (by simp [WellFormedPath.nodes] at hfuel; omega)
  simpa [DevicePath.sizeInBytesFromPtr, WellFormedPath.toBytes, WellFormedPath.nodes] using h

/-- `DevicePath::from_ffi_ptr` on memory that holds a well-formed path at `ptr`. -/
theorem DevicePath.fromFfiPtr_of_holds
    (w : WellFormedPath tags)
    {m : Memory}
    {ptr fuel : Nat}
    (hm : m.Holds ptr w.toBytes)
    (hfuel : w.nodes.length ≤ fuel) :
    DevicePath.fromFfiPtr tags m ptr fuel = some (.ok w.toDevicePath) := by
  rw [DevicePath.fromFfiPtr, sizeInBytesFromPtr_of_holds w hm hfuel]
  simp [Memory.read_of_holds hm (le_refl _), WellFormedPath.toDevicePath, bind, Except.bind,
    pure, Except.pure]

/-- A path that `DevicePath::from_ffi_ptr` returns is well formed and held at `ptr`. -/
theorem DevicePath.exists_wellFormed_of_fromFfiPtr
    {m : Memory}
    {ptr fuel : Nat}
    {p : DevicePath}
    (h : DevicePath.fromFfiPtr tags m ptr fuel = some (.ok p)) :
    ∃ w : WellFormedPath tags, m.Holds ptr w.toBytes ∧ w.nodes.length ≤ fuel ∧
      p = w.toDevicePath := by
  rw [DevicePath.fromFfiPtr] at h
  obtain ⟨size, hs, hp⟩ := Option.map_eq_some'.1 h
  cases size with
  | error f =>
      cases hp
  | ok n =>
      obtain ⟨w, hm, hlen, rfl⟩ := exists_wellFormed_of_loop_sizeInBytesFromPtrBody hs
      rw [Nat.zero_add] at hp
      simp only [Memory.read_of_holds hm (le_refl _), List.take_length, bind, Except.bind,
        pure, Except.pure, Except.ok.injEq] at hp
      exact ⟨w, hm, hlen, hp.symm⟩

/-- `DevicePath::from_ffi_ptr` returns exactly the well-formed path held at `ptr`. -/
theorem DevicePath.fromFfiPtr_eq_some_ok_iff
    {m : Memory}
    {ptr fuel : Nat}
    {p : DevicePath} :
    DevicePath.fromFfiPtr tags m ptr fuel = some (.ok p) ↔
      ∃ w : WellFormedPath tags, m.Holds ptr w.toBytes ∧ w.nodes.length ≤ fuel ∧
        p = w.toDevicePath := by
  constructor
  · exact DevicePath.exists_wellFormed_of_fromFfiPtr
  · rintro ⟨w, hm, hlen, rfl⟩
    exact DevicePath.fromFfiPtr_of_holds w hm hlen

/-- On a slice, the safe and the trusted constructor return the same paths. -/
theorem DevicePath.tryFrom_eq_ok_iff_fromFfiPtr
    {bytes : List UInt8}
    {p : DevicePath} :
    DevicePath.tryFrom tags bytes = .ok p ↔
      DevicePath.fromFfiPtr tags (Memory.ofBytes bytes) 0 bytes.length = some (.ok p) := by
  constructor
  · intro h
    obtain ⟨w, hpre, rfl⟩ := DevicePath.exists_wellFormed_of_tryFrom h
    exact DevicePath.fromFfiPtr_of_holds w (Memory.holds_ofBytes_iff.2 (by simpa using hpre))
      ((length_le_length_nodesToBytes w.nodes).trans hpre.length_le)
  · intro h
    obtain ⟨w, hm, -, rfl⟩ := DevicePath.exists_wellFormed_of_fromFfiPtr h
    obtain ⟨rest, rfl⟩ : w.toBytes <+: bytes := by simpa using Memory.holds_ofBytes_iff.1 hm
    exact DevicePath.tryFrom_toBytes_append w rest

end PtrWalks

/-- On a well-formed path both walks return its size, and both constructors build it. -/
theorem sizeInBytes_ptr_eq_slice
    {tags : EndTags}
    (w : WellFormedPath tags)
    (m : Memory)
    (ptr : Nat)
    (rest : List UInt8)
    (fuel : Nat)
    (hm : m.Holds ptr w.toBytes)
    (hfuel : w.nodes.length ≤ fuel) :
    w.toBytes.length = (w.nodes.map fun node => node.length.toNat).sum ∧
      DevicePath.sizeInBytesFromPtr tags m ptr fuel = some (.ok w.toBytes.length) ∧
      DevicePath.sizeInBytesFromSlice tags (w.toBytes ++ rest) = .ok w.toBytes.length ∧
      DevicePath.fromFfiPtr tags m ptr fuel = some (.ok w.toDevicePath) ∧
      DevicePath.tryFrom tags (w.toBytes ++ rest) = .ok w.toDevicePath :=
  ⟨length_nodesToBytes w.nodes, sizeInBytesFromPtr_of_holds w hm hfuel,
    sizeInBytesFromSlice_toBytes_append w rest, DevicePath.fromFfiPtr_of_holds w hm hfuel,
    DevicePath.tryFrom_toBytes_append w rest⟩

theorem sizeInBytes_ptr_eq_slice_two_nodes :
    let tags : EndTags := ⟨⟨0x7f⟩, ⟨0xff⟩⟩
    let w : WellFormedPath tags :=
      ⟨[⟨⟨⟨0xa0⟩, ⟨0xb0⟩, 6⟩, [10, 11], by decide⟩], ⟨⟨⟨0x7f⟩, ⟨0xff⟩, 4⟩, [], by decide⟩,
        by decide, by decide⟩
    let m := Memory.ofBytes (w.toBytes ++ [0xee])
    m.Holds 0 w.toBytes ∧ w.nodes.length ≤ 2 ∧
      (w.toBytes.length = (w.nodes.map fun node => node.length.toNat).sum ∧
        DevicePath.sizeInBytesFromPtr tags m 0 2 = some (.ok w.toBytes.length) ∧
        DevicePath.sizeInBytesFromSlice tags (w.toBytes ++ [0xee]) = .ok w.toBytes.length ∧
        DevicePath.fromFfiPtr tags m 0 2 = some (.ok w.toDevicePath) ∧
        DevicePath.tryFrom tags (w.toBytes ++ [0xee]) = .ok w.toDevicePath) := by
  intro tags w m
  have hm : m.Holds 0 w.toBytes := Memory.holds_ofBytes_iff.2 (List.prefix_append _ _)
  have hfuel : w.nodes.length ≤ 2 := by decide
  exact ⟨hm, hfuel, sizeInBytes_ptr_eq_slice w m 0 [0xee] 2 hm hfuel⟩

end UefiDevicePath
