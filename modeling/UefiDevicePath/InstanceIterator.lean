import UefiDevicePath.NodeIterator

/-!
# UEFI device paths: the instance iterator

`DevicePathInstanceIterator::next` measures the next instance with a `for` loop over
a node iterator that never stops early (`StopCondition::NoMoreNodes`), adding up node
lengths up to and including the first END node of either subtype.  It then splits
the remaining path there (`split_at`), returns the left part as the instance, and
keeps the right part, or `None` once nothing is left.

**Results.**
* `instanceSizeLoop_nodesToBytes`: the loop measures a run of non-END nodes and the
  END node after it.
* `next_of_forall` and `next_of_append_cons`: one call on a well-formed path.
* `instanceIter_yields_splitInstances`: `instance_iter` returns the instances that
  `splitInstances` cuts, then `None` forever; the remaining path is always `None` or
  a well-formed suffix of the path.
* `instanceIter_partitions`: the instances partition the path's bytes, each is a
  run closed by one END node, the last closes with the terminator, and there is one
  instance per END node.
* `nodeIter_eq_instance_nodeIters`: walking the whole path node by node visits the
  nodes that the instances' own node iterators visit, with each instance's END node
  in between.
-/

namespace UefiDevicePath

/-- The `for` loop of `DevicePathInstanceIterator::next`: lengths up to the first END node. -/
def instanceSizeLoop
    (tags : EndTags)
    (it : DevicePathNodeIterator)
    (instanceSize : Nat) :
    Except Fault Nat :=
  match _h : it.next tags with
  | .error f => .error f
  | .ok (none, _) => .ok instanceSize
  | .ok (some node, it') =>
      if node.deviceType = tags.END then .ok (instanceSize + node.length.toNat)
      else instanceSizeLoop tags it' (instanceSize + node.length.toNat)
termination_by it.nodes.length
decreasing_by exact DevicePathNodeIterator.length_lt_of_next_some _h

/-- `DevicePathInstanceIterator`: the part of the path not returned yet. -/
structure DevicePathInstanceIterator where
  remainingPath : Option DevicePath
deriving DecidableEq, Repr

/-- `DevicePathInstanceIterator::next`. -/
def DevicePathInstanceIterator.next
    (tags : EndTags)
    (it : DevicePathInstanceIterator) :
    Except Fault (Option DevicePathInstance × DevicePathInstanceIterator) :=
  match it.remainingPath with
  | none => .ok (none, it)
  | some remainingPath => do
      let instanceSize ← instanceSizeLoop tags ⟨remainingPath.data, .noMoreNodes⟩ 0
      let (head, rest) ← splitAt remainingPath.data instanceSize
      pure (some ⟨head⟩, ⟨if rest.isEmpty then none else some ⟨rest⟩⟩)

/-- `DevicePath::instance_iter`. -/
def DevicePath.instanceIter
    (p : DevicePath) :
    DevicePathInstanceIterator := ⟨some p⟩

variable {tags : EndTags}

theorem instanceSizeLoop_of_next_some
    {it it' : DevicePathNodeIterator}
    {node : DevicePathNode}
    (h : it.next tags = .ok (some node, it'))
    (instanceSize : Nat) :
    instanceSizeLoop tags it instanceSize =
      if node.deviceType = tags.END then .ok (instanceSize + node.length.toNat)
      else instanceSizeLoop tags it' (instanceSize + node.length.toNat) := by
  rw [instanceSizeLoop]
  split <;> rename_i hs <;> rw [h] at hs <;> cases hs
  rfl

/-- The loop measures a run of non-END nodes and the END node after it. -/
theorem instanceSizeLoop_nodesToBytes
    {run : List DevicePathNode}
    {x : DevicePathNode}
    (hrun : ∀ node ∈ run, node.deviceType ≠ tags.END)
    (hx : x.deviceType = tags.END)
    (rest : List UInt8)
    (instanceSize : Nat) :
    instanceSizeLoop tags ⟨nodesToBytes run ++ x.toBytes ++ rest, .noMoreNodes⟩ instanceSize =
      .ok (instanceSize + (nodesToBytes (run ++ [x])).length) := by
  induction run generalizing instanceSize with
  | nil =>
      have hstep := DevicePathNodeIterator.next_toBytes_append tags .noMoreNodes x rest
      simp only [StopCondition.stop, Bool.false_eq_true, if_false] at hstep
      simp [instanceSizeLoop_of_next_some hstep, hx]
  | cons node run ih =>
      simp only [List.mem_cons, forall_eq_or_imp] at hrun
      have hstep := DevicePathNodeIterator.next_toBytes_append tags .noMoreNodes node
        (nodesToBytes run ++ x.toBytes ++ rest)
      simp only [StopCondition.stop, Bool.false_eq_true, if_false] at hstep
      rw [show nodesToBytes (node :: run) ++ x.toBytes ++ rest =
          node.toBytes ++ (nodesToBytes run ++ x.toBytes ++ rest) by simp,
        instanceSizeLoop_of_next_some hstep, if_neg hrun.1, ih hrun.2]
      simp [Nat.add_assoc]

namespace DevicePathInstanceIterator

/-- A path with no END node before its terminator is one instance, and the last. -/
theorem next_of_forall
    (w : WellFormedPath tags)
    (hinit : ∀ node ∈ w.init, node.deviceType ≠ tags.END) :
    next tags ⟨some w.toDevicePath⟩ = .ok (some ⟨w.toBytes⟩, ⟨none⟩) := by
  have hsize : instanceSizeLoop tags ⟨w.toBytes, .noMoreNodes⟩ 0 = .ok w.toBytes.length := by
    simpa [WellFormedPath.toBytes, WellFormedPath.nodes] using
      instanceSizeLoop_nodesToBytes hinit w.last_deviceType [] 0
  simp only [next, WellFormedPath.toDevicePath, hsize, splitAt_length, bind, Except.bind, pure,
    Except.pure, List.isEmpty_nil, if_true]

/-- A path whose first END node is `x`: the instance ends at `x`, the rest stays well formed. -/
theorem next_of_append_cons
    (w : WellFormedPath tags)
    {run rest : List DevicePathNode}
    {x : DevicePathNode}
    (hinit : w.init = run ++ x :: rest)
    (hrun : ∀ node ∈ run, node.deviceType ≠ tags.END)
    (hx : x.deviceType = tags.END) :
    next tags ⟨some w.toDevicePath⟩ =
      .ok (some ⟨nodesToBytes (run ++ [x])⟩,
        ⟨some (w.dropInit (run ++ [x]) rest (by simp [hinit])).toDevicePath⟩) := by
  have hbytes : w.toBytes = nodesToBytes (run ++ [x]) ++ nodesToBytes (rest ++ [w.last]) := by
    simp [WellFormedPath.toBytes, WellFormedPath.nodes, hinit]
  have hsize : instanceSizeLoop tags
      ⟨nodesToBytes (run ++ [x]) ++ nodesToBytes (rest ++ [w.last]), .noMoreNodes⟩ 0 =
        .ok (nodesToBytes (run ++ [x])).length := by
    simpa using instanceSizeLoop_nodesToBytes hrun hx
      (nodesToBytes (rest ++ [w.last])) 0
  have hne : (nodesToBytes (rest ++ [w.last])).isEmpty = false := by
    simp [List.isEmpty_iff, nodesToBytes_eq_nil, w.last.toBytes_ne_nil]
  simp only [next, WellFormedPath.toDevicePath, hbytes, hsize, splitAt_append, bind,
    Except.bind, pure, Except.pure, hne]
  rfl

end DevicePathInstanceIterator

/-- `instance_iter` returns the instances that `splitInstances` cuts, then `None`. -/
theorem instanceIter_yields_splitInstances
    (w : WellFormedPath tags) :
    Yields (DevicePathInstanceIterator.next tags) w.toDevicePath.instanceIter
      ((splitInstances tags w.last w.init).map fun g => ⟨nodesToBytes (g.1 ++ [g.2])⟩) := by
  obtain ⟨n, h⟩ : ∃ n, w.init.length = n := ⟨_, rfl⟩
  induction n using Nat.strong_induction_on generalizing w with
  | _ n ih =>
      rcases forall_or_exists_first_end tags w.init with
        hall | ⟨run, x, rest, hinit, hrun, hx⟩
      · rw [splitInstances_of_forall hall]
        refine yields_cons (DevicePathInstanceIterator.next_of_forall w hall)
          (yields_nil_of_fixed rfl)
      · rw [hinit, splitInstances_append_cons hrun hx, List.map_cons]
        refine yields_cons (DevicePathInstanceIterator.next_of_append_cons w hinit hrun hx) ?_
        have hlt : rest.length < n := by
          rw [← h, hinit]
          simp only [List.length_append, List.length_cons]
          omega
        simpa using ih rest.length hlt (w.dropInit (run ++ [x]) rest (by simp [hinit])) rfl

/-- `instance_iter` partitions the path into END-closed runs, one per END node. -/
theorem instanceIter_partitions
    (w : WellFormedPath tags) :
    ∃ instances : List (List DevicePathNode × DevicePathNode),
      Yields (DevicePathInstanceIterator.next tags) w.toDevicePath.instanceIter
        (instances.map fun g => ⟨nodesToBytes (g.1 ++ [g.2])⟩) ∧
      (instances.map fun g => nodesToBytes (g.1 ++ [g.2])).flatten = w.toDevicePath.asBytes ∧
      (∀ g ∈ instances,
        (∀ node ∈ g.1, node.deviceType ≠ tags.END) ∧ g.2.deviceType = tags.END) ∧
      instances.getLast?.map Prod.snd = some w.last ∧
      instances.length = w.nodes.countP fun node => node.deviceType = tags.END := by
  refine ⟨splitInstances tags w.last w.init, instanceIter_yields_splitInstances w, ?_,
    splitInstances_shape w.last_deviceType w.init, splitInstances_getLast_snd w.init,
    length_splitInstances w.last_deviceType w.init⟩
  rw [flatten_map_nodesToBytes, flatMap_splitInstances]
  rfl

/-- A cut instance ends with an END node, and its `node_iter` returns the nodes before it. -/
theorem yields_instance_nodeIter
    (w : WellFormedPath tags)
    {g : List DevicePathNode × DevicePathNode}
    (hg : g ∈ splitInstances tags w.last w.init) :
    g.2.deviceType = tags.END ∧
      Yields (DevicePathNodeIterator.next tags)
        (DevicePathInstance.nodeIter ⟨nodesToBytes (g.1 ++ [g.2])⟩) g.1 := by
  obtain ⟨hrun, hend⟩ := splitInstances_shape w.last_deviceType w.init g hg
  have h := DevicePathNodeIterator.yields_nodesToBytes (c := .anyEndNode)
    (by simpa [StopCondition.stop] using hrun) (by simpa [StopCondition.stop] using hend) []
  exact ⟨hend, by simpa [DevicePathInstance.nodeIter] using h⟩

/-- `node_iter` returns the instances' `node_iter` nodes, their END nodes between. -/
theorem nodeIter_eq_instance_nodeIters
    (w : WellFormedPath tags) :
    ∃ instances : List (List DevicePathNode × DevicePathNode),
      Yields (DevicePathInstanceIterator.next tags) w.toDevicePath.instanceIter
        (instances.map fun g => ⟨nodesToBytes (g.1 ++ [g.2])⟩) ∧
      (∀ g ∈ instances, g.2.deviceType = tags.END ∧
        Yields (DevicePathNodeIterator.next tags)
          (DevicePathInstance.nodeIter ⟨nodesToBytes (g.1 ++ [g.2])⟩) g.1) ∧
      Yields (DevicePathNodeIterator.next tags) w.toDevicePath.nodeIter
        (instances.flatMap fun g => g.1 ++ [g.2]).dropLast := by
  refine ⟨splitInstances tags w.last w.init, instanceIter_yields_splitInstances w,
    fun g hg => yields_instance_nodeIter w hg, ?_⟩
  rw [flatMap_splitInstances, List.dropLast_concat]
  simpa using DevicePathNodeIterator.yields_endEntire_toBytes_append w []

end UefiDevicePath
