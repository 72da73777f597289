import UefiDevicePath.Size
import UefiDevicePath.InstanceIterator
import Mathlib.Data.List.Forall2

/-!
# UEFI device paths: building raw paths, and using what the constructors return

The module's tests build raw device paths with `add_node`, which pushes one node onto a
`Vec<u8>`: the type and subtype bytes, the little-endian `u16` length
`size_of::<DevicePathHeader>() + node_data.len()`, then the payload.  They check every
decoded node with `check_node`.  `addNode` and `checkNode` model the two, and
`addNodes` is a run of `add_node` calls on one vector, as `create_raw_device_path`
makes.

The builder and the decoders meet at `WellFormedPath`: a run of `add_node` calls whose
only END_ENTIRE node is its last builds the bytes of a well-formed path, and every
well-formed path is built so.

**Results.**
* `addNode_eq_some_iff`: `add_node` appends exactly the bytes of the node whose fields
  are its arguments; `checkNode_iff`: `check_node` passes exactly on that node.
* `tryFrom_addNode`: the safe node constructor decodes what `add_node` appended into a
  node that passes `check_node`.
* `tryFrom_eq_ok_iff_addNodes`: `<&DevicePath>::try_from` returns exactly the paths that
  a run of `add_node` calls builds, ending with its only END_ENTIRE node.
* `fromFfiPtr_nodeIter_addNodes`: on such a built path, `from_ffi_ptr` returns the whole
  path and `node_iter` returns one node per call but the last, each passing
  `check_node` against its call.
* `iterators_of_tryFrom`: on every path that `try_from` returns, `node_iter`,
  `instance_iter` and every instance's `node_iter` end without a fault.
-/

namespace UefiDevicePath

/-- `u16::try_from(usize)`: `None` when the value does not fit in 16 bits. -/
def u16TryFrom
    (n : Nat) :
    Option UInt16 :=
  if n < UInt16.size then some (UInt16.ofNat n) else none

/-- `u16::to_le_bytes`. -/
def u16ToLeBytes
    (v : UInt16) :
    List UInt8 :=
  [UInt8.ofNat (v.toNat % 256), UInt8.ofNat (v.toNat / 256)]

/-- `add_node(path, device_type, sub_type, node_data)` of the tests; `None` is the panic
of `unwrap` when the node length does not fit in a `u16`. -/
def addNode
    (path : List UInt8)
    (deviceType subType : UInt8)
    (nodeData : List UInt8) :
    Option (List UInt8) := do
  let length ← u16TryFrom (DevicePathHeader.size + nodeData.length)
  pure (path ++ [deviceType, subType] ++ u16ToLeBytes length ++ nodeData)

/-- The arguments of one `add_node` call; `check_node` takes the same three. -/
structure NodeArgs where
  deviceType : UInt8
  subType : UInt8
  nodeData : List UInt8
deriving DecidableEq, Repr

/-- `add_node` called once per entry, in order, on one vector (`create_raw_device_path`). -/
def addNodes
    (path : List UInt8) :
    List NodeArgs → Option (List UInt8)
  | [] => some path
  | a :: more => do
      let path ← addNode path a.deviceType a.subType a.nodeData
      addNodes path more

/-- `check_node` of the tests: whether its four assertions hold; a failed one is `false`. -/
def checkNode
    (node : DevicePathNode)
    (deviceType subType : UInt8)
    (nodeData : List UInt8) :
    Bool :=
  node.deviceType.val == deviceType && node.subType.val == subType &&
    some node.length == u16TryFrom (DevicePathHeader.size + nodeData.length) &&
    node.data == nodeData

/-- The arguments of `add_node` that rebuild `node`. -/
def DevicePathNode.args
    (node : DevicePathNode) :
    NodeArgs :=
  ⟨node.deviceType.val, node.subType.val, node.data⟩

section Encoding

/-- The header's bytes: the two type bytes, then the length as a little-endian `u16`. -/
theorem DevicePathHeader.toBytes_eq
    (h : DevicePathHeader) :
    h.toBytes = [h.deviceType.val, h.subType.val] ++ u16ToLeBytes h.length := rfl

/-- A node's length field is `u16::try_from` of its header size plus payload length. -/
theorem u16TryFrom_length
    (node : DevicePathNode) :
    u16TryFrom (DevicePathHeader.size + node.data.length) = some node.length := by
  have hlt := node.header.length.toNat_lt_size
  rw [← node.length_eq, u16TryFrom, if_pos hlt]
  exact congrArg some (UInt16.toNat.inj (UInt16.toNat_ofNat_of_lt hlt))

/-- `add_node` appends exactly the bytes of the node whose fields are its arguments. -/
theorem addNode_eq_some_iff
    {path bytes : List UInt8}
    {t s : UInt8}
    {nodeData : List UInt8} :
    addNode path t s nodeData = some bytes ↔
      ∃ node : DevicePathNode, node.args = ⟨t, s, nodeData⟩ ∧ bytes = path ++ node.toBytes := by
  constructor
  · intro h
    simp only [addNode, u16TryFrom, Option.bind_eq_bind, Option.pure_def] at h
    split at h
    · rename_i hlt
      cases h
      refine ⟨⟨⟨⟨t⟩, ⟨s⟩, UInt16.ofNat _⟩, nodeData, UInt16.toNat_ofNat_of_lt hlt⟩, rfl, ?_⟩
      simp [DevicePathNode.toBytes, DevicePathHeader.toBytes_eq]
    · cases h
  · rintro ⟨node, hargs, rfl⟩
    simp only [DevicePathNode.args, NodeArgs.mk.injEq] at hargs
    obtain ⟨rfl, rfl, rfl⟩ := hargs
    simp [addNode, u16TryFrom_length, DevicePathNode.toBytes, DevicePathHeader.toBytes_eq,
      DevicePathNode.length, DevicePathNode.deviceType, DevicePathNode.subType]

/-- `check_node` passes exactly on the node whose fields are its arguments. -/
theorem checkNode_iff
    {node : DevicePathNode}
    {t s : UInt8}
    {nodeData : List UInt8} :
    checkNode node t s nodeData = true ↔ node.args = ⟨t, s, nodeData⟩ := by
  simp only [checkNode, DevicePathNode.args, NodeArgs.mk.injEq, Bool.and_eq_true, beq_iff_eq]
  constructor
  · rintro ⟨⟨⟨ht, hs⟩, -⟩, hd⟩
    exact ⟨ht, hs, hd⟩
  · rintro ⟨ht, hs, rfl⟩
    exact ⟨⟨⟨ht, hs⟩, (u16TryFrom_length node).symm⟩, rfl⟩

theorem checkNode_args_iff
    {node : DevicePathNode}
    {a : NodeArgs} :
    checkNode node a.deviceType a.subType a.nodeData = true ↔ node.args = a :=
  checkNode_iff

theorem forall₂_checkNode_iff
    {nodes : List DevicePathNode}
    {args : List NodeArgs} :
    List.Forall₂ (fun node a => checkNode node a.deviceType a.subType a.nodeData = true)
      nodes args ↔ nodes.map DevicePathNode.args = args := by
  induction nodes generalizing args with
  | nil =>
      cases args <;> simp
  | cons node nodes ih =>
      cases args with
      | nil =>
          simp
      | cons a args =>
          rw [List.forall₂_cons, ih, checkNode_args_iff, List.map_cons, List.cons.injEq]

/-- The node constructor decodes what `add_node` appended into a node `check_node` passes. -/
theorem tryFrom_addNode
    {path bytes : List UInt8}
    {t s : UInt8}
    {nodeData : List UInt8}
    (h : addNode path t s nodeData = some bytes)
    (rest : List UInt8) :
    ∃ node, DevicePathNode.tryFrom ((bytes ++ rest).drop path.length) = .ok node ∧
      checkNode node t s nodeData = true := by
  obtain ⟨node, hargs, rfl⟩ := addNode_eq_some_iff.1 h
  refine ⟨node, DevicePathNode.tryFrom_eq_ok_iff.2 ?_, checkNode_iff.2 hargs⟩
  simp

theorem tryFrom_addNode_of_fields :
    addNode [] 0xa0 0xb0 [10, 11] = some [0xa0, 0xb0, 6, 0, 10, 11] ∧
      ∃ node, DevicePathNode.tryFrom
          (([0xa0, 0xb0, 6, 0, 10, 11] ++ [0xee] : List UInt8).drop 0) = .ok node ∧
        checkNode node 0xa0 0xb0 [10, 11] = true :=
  have h : addNode [] 0xa0 0xb0 [10, 11] = some [0xa0, 0xb0, 6, 0, 10, 11] := rfl
  ⟨h, tryFrom_addNode h [0xee]⟩

/-- A run of `add_node` calls appends one node per call, its fields the call's arguments. -/
theorem addNodes_eq_some_iff
    {path bytes : List UInt8}
    {args : List NodeArgs} :
    addNodes path args = some bytes ↔
      ∃ nodes : List DevicePathNode, nodes.map DevicePathNode.args = args ∧
        bytes = path ++ nodesToBytes nodes := by
  induction args generalizing path with
  | nil =>
      simp [addNodes, eq_comm]
  | cons a args ih =>
      simp only [addNodes, Option.bind_eq_bind, Option.bind_eq_some, ih, addNode_eq_some_iff]
      constructor
      · rintro ⟨_, ⟨node, hnode, rfl⟩, nodes, hnodes, rfl⟩
        exact ⟨node :: nodes, by simp [hnode, hnodes], by simp⟩
      · rintro ⟨_ | ⟨node, nodes⟩, hmap, rfl⟩
        · cases hmap
        · simp only [List.map_cons, List.cons.injEq] at hmap
          exact ⟨_, ⟨node, hmap.1, rfl⟩, nodes, hmap.2, by simp⟩

end Encoding

section WellFormed

variable {tags : EndTags}

theorem isEndEntire_iff_args
    (node : DevicePathNode) :
    node.isEndEntire tags = true ↔
      (node.args.deviceType, node.args.subType) = (tags.END.val, tags.END_ENTIRE.val) := by
  obtain ⟨⟨⟨t⟩, ⟨s⟩, _⟩, _, _⟩ := node
  obtain ⟨⟨e⟩, ⟨ee⟩⟩ := tags
  simp [DevicePathNode.isEndEntire, DevicePathNode.fullType, DevicePathNode.args,
    DevicePathNode.deviceType, DevicePathNode.subType]

theorem isEndEntire_eq_false_iff_args
    (node : DevicePathNode) :
    node.isEndEntire tags = false ↔
      (node.args.deviceType, node.args.subType) ≠ (tags.END.val, tags.END_ENTIRE.val) := by
  rw [← Bool.not_eq_true, isEndEntire_iff_args]

/-- A run of `add_node` calls whose only END_ENTIRE node is its last builds a path. -/
theorem exists_wellFormed_of_addNodes
    {init : List NodeArgs}
    {lastData bytes : List UInt8}
    (hinit : ∀ a ∈ init, (a.deviceType, a.subType) ≠ (tags.END.val, tags.END_ENTIRE.val))
    (h : addNodes [] (init ++ [⟨tags.END.val, tags.END_ENTIRE.val, lastData⟩]) = some bytes) :
    ∃ w : WellFormedPath tags, w.toBytes = bytes ∧ w.init.map DevicePathNode.args = init := by
  obtain ⟨nodes, hmap, rfl⟩ := addNodes_eq_some_iff.1 h
  obtain ⟨initNodes, lastNodes, rfl, hinitMap, hlastMap⟩ := List.append_eq_map_iff.1 hmap.symm
  obtain ⟨last, more, rfl, hlast, hmore⟩ := List.map_eq_cons_iff.1 hlastMap
  cases List.map_eq_nil_iff.1 hmore
  refine ⟨⟨initNodes, last, (isEndEntire_iff_args last).2 (by simp [hlast]), ?_⟩,
    by simp [WellFormedPath.toBytes, WellFormedPath.nodes], hinitMap⟩
  exact fun node hnode => (isEndEntire_eq_false_iff_args node).2
    (hinit _ (hinitMap ▸ List.mem_map_of_mem _ hnode))

/-- A well-formed path is built by a run of `add_node` calls, one per node. -/
theorem addNodes_wellFormed
    (w : WellFormedPath tags) :
    addNodes [] (w.init.map DevicePathNode.args ++
      [⟨tags.END.val, tags.END_ENTIRE.val, w.last.data⟩]) = some w.toBytes := by
  have hlast : w.last.args = ⟨tags.END.val, tags.END_ENTIRE.val, w.last.data⟩ := by
    have h := (isEndEntire_iff_args w.last).1 w.last_isEndEntire
    simp only [Prod.mk.injEq] at h
    simp [DevicePathNode.args, ← h.1, ← h.2]
  exact addNodes_eq_some_iff.2 ⟨w.nodes, by simp [WellFormedPath.nodes, hlast],
    by simp [WellFormedPath.toBytes]⟩

/-- `try_from` returns exactly the paths that runs of `add_node` calls build. -/
theorem tryFrom_eq_ok_iff_addNodes
    {bytes : List UInt8}
    {p : DevicePath} :
    DevicePath.tryFrom tags bytes = .ok p ↔
      ∃ (init : List NodeArgs) (lastData : List UInt8),
        (∀ a ∈ init, (a.deviceType, a.subType) ≠ (tags.END.val, tags.END_ENTIRE.val)) ∧
        addNodes [] (init ++ [⟨tags.END.val, tags.END_ENTIRE.val, lastData⟩]) =
          some p.asBytes ∧
        p.asBytes <+: bytes := by
  constructor
  · intro h
    obtain ⟨w, hpre, rfl⟩ := DevicePath.exists_wellFormed_of_tryFrom h
    refine ⟨w.init.map DevicePathNode.args, w.last.data, ?_, addNodes_wellFormed w, hpre⟩
    simp only [List.mem_map]
    rintro _ ⟨node, hnode, rfl⟩
    exact (isEndEntire_eq_false_iff_args node).1 (w.init_not_isEndEntire node hnode)
  · rintro ⟨init, lastData, hinit, hadd, ⟨rest, rfl⟩⟩
    obtain ⟨w, hw, -⟩ := exists_wellFormed_of_addNodes hinit hadd
    obtain ⟨data⟩ := p
    cases hw
    exact DevicePath.tryFrom_toBytes_append w rest

/-- `from_ffi_ptr` and `node_iter` give back a built path and the nodes of its calls. -/
theorem fromFfiPtr_nodeIter_addNodes
    {init : List NodeArgs}
    {lastData bytes : List UInt8}
    (hinit : ∀ a ∈ init, (a.deviceType, a.subType) ≠ (tags.END.val, tags.END_ENTIRE.val))
    (h : addNodes [] (init ++ [⟨tags.END.val, tags.END_ENTIRE.val, lastData⟩]) = some bytes)
    {m : Memory}
    {ptr : Nat}
    (hm : m.Holds ptr bytes) :
    DevicePath.fromFfiPtr tags m ptr (init.length + 1) = some (.ok ⟨bytes⟩) ∧
      ∃ nodes, Yields (DevicePathNodeIterator.next tags) (DevicePath.nodeIter ⟨bytes⟩) nodes ∧
        List.Forall₂ (fun node a => checkNode node a.deviceType a.subType a.nodeData = true)
          nodes init := by
  obtain ⟨w, rfl, hargs⟩ := exists_wellFormed_of_addNodes hinit h
  have hlen : w.nodes.length = init.length + 1 := by
    simp [WellFormedPath.nodes, ← hargs]
  exact ⟨DevicePath.fromFfiPtr_of_holds w hm hlen.le, w.init,
    by simpa using DevicePathNodeIterator.yields_endEntire_toBytes_append w [],
    forall₂_checkNode_iff.2 hargs⟩

/-- The path of `create_raw_device_path`, with END `0x7f` and END_ENTIRE `0xff`. -/
theorem fromFfiPtr_nodeIter_addNodes_raw_device_path :
    let tags : EndTags := ⟨⟨0x7f⟩, ⟨0xff⟩⟩
    let init : List NodeArgs := [⟨0xa0, 0xb0, [10, 11]⟩, ⟨0xa1, 0xb1, [20, 21, 22, 23]⟩,
      ⟨0x7f, 0x01, []⟩, ⟨0xa2, 0xb2, [30, 31]⟩, ⟨0xa3, 0xb3, [40, 41, 42, 43]⟩]
    let bytes : List UInt8 := [0xa0, 0xb0, 6, 0, 10, 11, 0xa1, 0xb1, 8, 0, 20, 21, 22, 23,
      0x7f, 0x01, 4, 0, 0xa2, 0xb2, 6, 0, 30, 31, 0xa3, 0xb3, 8, 0, 40, 41, 42, 43,
      0x7f, 0xff, 4, 0]
    (∀ a ∈ init, (a.deviceType, a.subType) ≠ (tags.END.val, tags.END_ENTIRE.val)) ∧
      addNodes [] (init ++ [⟨tags.END.val, tags.END_ENTIRE.val, []⟩]) = some bytes ∧
      (Memory.ofBytes bytes).Holds 0 bytes ∧
      (DevicePath.fromFfiPtr tags (Memory.ofBytes bytes) 0 (init.length + 1) =
          some (.ok ⟨bytes⟩) ∧
        ∃ nodes, Yields (DevicePathNodeIterator.next tags) (DevicePath.nodeIter ⟨bytes⟩) nodes ∧
          List.Forall₂ (fun node a => checkNode node a.deviceType a.subType a.nodeData = true)
            nodes init) := by
  intro tags init bytes
  have hinit : ∀ a ∈ init, (a.deviceType, a.subType) ≠ (tags.END.val, tags.END_ENTIRE.val) := by
    decide
  have h : addNodes [] (init ++ [⟨tags.END.val, tags.END_ENTIRE.val, []⟩]) = some bytes := by
    decide
  have hm := Memory.holds_ofBytes bytes
  exact ⟨hinit, h, hm, fromFfiPtr_nodeIter_addNodes hinit h hm⟩

/-- Every iterator over a path that `try_from` returns ends, and none faults. -/
theorem iterators_of_tryFrom
    {bytes : List UInt8}
    {p : DevicePath}
    (h : DevicePath.tryFrom tags bytes = .ok p) :
    (∃ nodes, Yields (DevicePathNodeIterator.next tags) p.nodeIter nodes) ∧
      ∃ instances : List DevicePathInstance,
        Yields (DevicePathInstanceIterator.next tags) p.instanceIter instances ∧
        ∀ i ∈ instances, ∃ nodes, Yields (DevicePathNodeIterator.next tags) i.nodeIter nodes := by
  obtain ⟨w, -, rfl⟩ := DevicePath.exists_wellFormed_of_tryFrom h
  refine ⟨⟨w.init, by simpa using DevicePathNodeIterator.yields_endEntire_toBytes_append w []⟩,
    _, instanceIter_yields_splitInstances w, ?_⟩
  simp only [List.mem_map]
  rintro _ ⟨g, hg, rfl⟩
  exact ⟨g.1, (yields_instance_nodeIter w hg).2⟩

theorem iterators_of_tryFrom_raw_device_path :
    let tags : EndTags := ⟨⟨0x7f⟩, ⟨0xff⟩⟩
    let bytes : List UInt8 := [0xa0, 0xb0, 6, 0, 10, 11, 0x7f, 0x01, 4, 0,
      0xa2, 0xb2, 6, 0, 30, 31, 0x7f, 0xff, 4, 0]
    DevicePath.tryFrom tags bytes = .ok ⟨bytes⟩ ∧
      ((∃ nodes, Yields (DevicePathNodeIterator.next tags) (DevicePath.nodeIter ⟨bytes⟩) nodes) ∧
        ∃ instances : List DevicePathInstance,
          Yields (DevicePathInstanceIterator.next tags) (DevicePath.instanceIter ⟨bytes⟩)
            instances ∧
          ∀ i ∈ instances,
            ∃ nodes, Yields (DevicePathNodeIterator.next tags) i.nodeIter nodes) := by
  intro tags bytes
  let init : List NodeArgs := [⟨0xa0, 0xb0, [10, 11]⟩, ⟨0x7f, 0x01, []⟩, ⟨0xa2, 0xb2, [30, 31]⟩]
  have hinit : ∀ a ∈ init, (a.deviceType, a.subType) ≠ (tags.END.val, tags.END_ENTIRE.val) := by
    decide
  have hadd : addNodes [] (init ++ [⟨tags.END.val, tags.END_ENTIRE.val, []⟩]) = some bytes := by
    decide
  obtain ⟨w, hw, -⟩ := exists_wellFormed_of_addNodes hinit hadd
  have h : DevicePath.tryFrom tags bytes = .ok ⟨bytes⟩ := by
    have ht := DevicePath.tryFrom_toBytes_append w []
    rwa [List.append_nil, WellFormedPath.toDevicePath, hw] at ht
  exact ⟨h, iterators_of_tryFrom h⟩

end WellFormed

end UefiDevicePath
