import UefiDevicePath.Node
import Mathlib.Algebra.Order.Ring.Nat

/-!
# UEFI device paths: paths, instances, and well-formed paths

`DevicePath` and `DevicePathInstance` are the unsized byte views of the source.  This
module also says what a device path is meant to be, independently of the code that
walks one:

* `WellFormedPath` is a path given by its nodes: every node's length covers its
  header (this is the invariant `DevicePathNode.length_eq`), the last node ends the
  entire path, and no other node does.  Its bytes are `WellFormedPath.toBytes`.
* `splitInstances` cuts the nodes of a path after every END node: an instance is a
  run of non-END nodes closed by one END node of any subtype.

**Results.**  `splitInstances` partitions the nodes (`flatMap_splitInstances`), every
instance is a run closed by an END node (`splitInstances_shape`), the last closes
with the END_ENTIRE node (`splitInstances_getLast_snd`), and there is one instance per
END node (`length_splitInstances`).
-/

namespace UefiDevicePath

/-- `DevicePath`: the bytes of a whole device path. -/
structure DevicePath where
  data : List UInt8
deriving DecidableEq, Repr

/-- `DevicePathInstance`: the bytes of one instance of a device path. -/
structure DevicePathInstance where
  data : List UInt8
deriving DecidableEq, Repr

/-- `DevicePath::as_bytes`. -/
def DevicePath.asBytes
    (p : DevicePath) :
    List UInt8 := p.data

/-- `DevicePathInstance::as_bytes`. -/
def DevicePathInstance.asBytes
    (i : DevicePathInstance) :
    List UInt8 := i.data

/-- Nodes laid out one after another. -/
def nodesToBytes
    (nodes : List DevicePathNode) :
    List UInt8 :=
  nodes.flatMap DevicePathNode.toBytes

@[simp] theorem nodesToBytes_nil :
    nodesToBytes [] = [] := rfl

@[simp] theorem nodesToBytes_cons
    (node : DevicePathNode)
    (nodes : List DevicePathNode) :
    nodesToBytes (node :: nodes) = node.toBytes ++ nodesToBytes nodes := rfl

@[simp] theorem nodesToBytes_append
    (l r : List DevicePathNode) :
    nodesToBytes (l ++ r) = nodesToBytes l ++ nodesToBytes r := by
  simp [nodesToBytes]

theorem length_nodesToBytes
    (nodes : List DevicePathNode) :
    (nodesToBytes nodes).length = (nodes.map fun node => node.length.toNat).sum := by
  induction nodes with
  | nil =>
      rfl
  | cons node nodes ih =>
      simp [ih]

/-- A node list has no more nodes than bytes: every node has at least one. -/
theorem length_le_length_nodesToBytes
    (nodes : List DevicePathNode) :
    nodes.length ≤ (nodesToBytes nodes).length := by
  induction nodes with
  | nil =>
      simp
  | cons node nodes ih =>
      have hsize := node.size_le_length
      simp only [nodesToBytes_cons, List.length_append, List.length_cons,
        DevicePathNode.length_toBytes, DevicePathHeader.size] at hsize ⊢
      omega

/-- Nodes are never empty, so the bytes of a nonempty node list are not either. -/
theorem nodesToBytes_eq_nil
    {nodes : List DevicePathNode} :
    nodesToBytes nodes = [] ↔ nodes = [] := by
  cases nodes with
  | nil =>
      simp
  | cons node nodes =>
      simp [node.toBytes_ne_nil]

/-- A well-formed device path: the last node ends the entire path and no other does. -/
structure WellFormedPath (tags : EndTags) where
  init : List DevicePathNode
  last : DevicePathNode
  last_isEndEntire : last.isEndEntire tags = true
  init_not_isEndEntire : ∀ node ∈ init, node.isEndEntire tags = false

namespace WellFormedPath

variable {tags : EndTags}

/-- All nodes of the path, the terminator included. -/
def nodes
    (w : WellFormedPath tags) :
    List DevicePathNode := w.init ++ [w.last]

/-- The bytes of the path. -/
def toBytes
    (w : WellFormedPath tags) :
    List UInt8 := nodesToBytes w.nodes

/-- The path as the source's `DevicePath`. -/
def toDevicePath
    (w : WellFormedPath tags) :
    DevicePath := ⟨w.toBytes⟩

/-- The path that is left after a prefix of its non-terminal nodes. -/
def dropInit
    (w : WellFormedPath tags)
    (pre rest : List DevicePathNode)
    (h : w.init = pre ++ rest) :
    WellFormedPath tags :=
  ⟨rest, w.last, w.last_isEndEntire,
    fun node hn => w.init_not_isEndEntire node (by rw [h]; exact List.mem_append_right _ hn)⟩

@[simp] theorem dropInit_init
    (w : WellFormedPath tags)
    (pre rest : List DevicePathNode)
    (h : w.init = pre ++ rest) :
    (w.dropInit pre rest h).init = rest := rfl

@[simp] theorem dropInit_last
    (w : WellFormedPath tags)
    (pre rest : List DevicePathNode)
    (h : w.init = pre ++ rest) :
    (w.dropInit pre rest h).last = w.last := rfl

theorem last_deviceType
    (w : WellFormedPath tags) :
    w.last.deviceType = tags.END :=
  DevicePathNode.deviceType_eq_of_isEndEntire w.last_isEndEntire

/-- The path of the terminator alone. -/
def single
    (last : DevicePathNode)
    (h : last.isEndEntire tags = true) :
    WellFormedPath tags :=
  ⟨[], last, h, by simp⟩

/-- The path with one more node in front, one that does not end the path. -/
def cons
    (node : DevicePathNode)
    (h : node.isEndEntire tags = false)
    (w : WellFormedPath tags) :
    WellFormedPath tags :=
  ⟨node :: w.init, w.last, w.last_isEndEntire, by
    simpa only [List.mem_cons, forall_eq_or_imp] using ⟨h, w.init_not_isEndEntire⟩⟩

@[simp] theorem nodes_single
    (last : DevicePathNode)
    (h : last.isEndEntire tags = true) :
    (single last h).nodes = [last] := rfl

@[simp] theorem nodes_cons
    (node : DevicePathNode)
    (h : node.isEndEntire tags = false)
    (w : WellFormedPath tags) :
    (w.cons node h).nodes = node :: w.nodes := rfl

@[simp] theorem toBytes_single
    (last : DevicePathNode)
    (h : last.isEndEntire tags = true) :
    (single last h).toBytes = last.toBytes := by
  simp [toBytes]

@[simp] theorem toBytes_cons
    (node : DevicePathNode)
    (h : node.isEndEntire tags = false)
    (w : WellFormedPath tags) :
    (w.cons node h).toBytes = node.toBytes ++ w.toBytes := by
  simp [toBytes]

end WellFormedPath

/-- Put `node` in front of the first instance. -/
def consFirst
    (node : DevicePathNode) :
    List (List DevicePathNode × DevicePathNode) → List (List DevicePathNode × DevicePathNode)
  | [] => []
  | (run, t) :: more => (node :: run, t) :: more

/-- The instances of `init ++ [last]`: runs of non-END nodes, each with the END node after it. -/
def splitInstances
    (tags : EndTags)
    (last : DevicePathNode) :
    List DevicePathNode → List (List DevicePathNode × DevicePathNode)
  | [] => [([], last)]
  | node :: rest =>
      if node.deviceType = tags.END then ([], node) :: splitInstances tags last rest
      else consFirst node (splitInstances tags last rest)

section SplitInstances

variable {tags : EndTags} {last : DevicePathNode}

/-- A node list has no END node, or a first one. -/
theorem forall_or_exists_first_end
    (tags : EndTags)
    (nodes : List DevicePathNode) :
    (∀ node ∈ nodes, node.deviceType ≠ tags.END) ∨
      ∃ run x rest, nodes = run ++ x :: rest ∧
        (∀ node ∈ run, node.deviceType ≠ tags.END) ∧ x.deviceType = tags.END := by
  induction nodes with
  | nil =>
      simp
  | cons node nodes ih =>
      by_cases hnode : node.deviceType = tags.END
      · exact .inr ⟨[], node, nodes, rfl, by simp, hnode⟩
      · rcases ih with hall | ⟨run, x, rest, rfl, hrun, hx⟩
        · exact .inl (by simpa [hnode] using hall)
        · exact .inr ⟨node :: run, x, rest, rfl, by simpa [hnode] using hrun, hx⟩

theorem splitInstances_ne_nil
    (init : List DevicePathNode) :
    splitInstances tags last init ≠ [] := by
  induction init with
  | nil =>
      simp [splitInstances]
  | cons node rest ih =>
      unfold splitInstances
      split
      · simp
      · obtain ⟨g, more, hg⟩ := List.exists_cons_of_ne_nil ih
        simp [hg, consFirst]

theorem splitInstances_of_forall
    {run : List DevicePathNode}
    (hrun : ∀ node ∈ run, node.deviceType ≠ tags.END) :
    splitInstances tags last run = [(run, last)] := by
  induction run with
  | nil =>
      rfl
  | cons node rest ih =>
      simp only [List.mem_cons, forall_eq_or_imp] at hrun
      simp [splitInstances, hrun.1, ih hrun.2, consFirst]

theorem splitInstances_append_cons
    {run rest : List DevicePathNode}
    {x : DevicePathNode}
    (hrun : ∀ node ∈ run, node.deviceType ≠ tags.END)
    (hx : x.deviceType = tags.END) :
    splitInstances tags last (run ++ x :: rest) = (run, x) :: splitInstances tags last rest := by
  induction run with
  | nil =>
      simp [splitInstances, hx]
  | cons node run ih =>
      simp only [List.mem_cons, forall_eq_or_imp] at hrun
      simp [splitInstances, hrun.1, ih hrun.2, consFirst]

/-- The instances, laid end to end, are the path's nodes, nothing lost or repeated. -/
theorem flatMap_splitInstances
    (init : List DevicePathNode) :
    (splitInstances tags last init).flatMap (fun g => g.1 ++ [g.2]) = init ++ [last] := by
  induction init with
  | nil =>
      simp [splitInstances]
  | cons node rest ih =>
      unfold splitInstances
      split
      · simp [ih]
      · obtain ⟨⟨run, t⟩, more, hg⟩ := List.exists_cons_of_ne_nil (splitInstances_ne_nil rest)
        rw [hg] at ih ⊢
        simpa [consFirst] using ih

/-- Every instance is a run of non-END nodes closed by an END node. -/
theorem splitInstances_shape
    (hlast : last.deviceType = tags.END)
    (init : List DevicePathNode) :
    ∀ g ∈ splitInstances tags last init,
      (∀ node ∈ g.1, node.deviceType ≠ tags.END) ∧ g.2.deviceType = tags.END := by
  induction init with
  | nil =>
      simp [splitInstances, hlast]
  | cons node rest ih =>
      unfold splitInstances
      split
      · rename_i hnode
        simpa [hnode] using ih
      · rename_i hnode
        obtain ⟨⟨run, t⟩, more, hg⟩ := List.exists_cons_of_ne_nil (splitInstances_ne_nil rest)
        rw [hg] at ih ⊢
        simp only [List.mem_cons, forall_eq_or_imp] at ih
        simp only [consFirst, List.mem_cons, forall_eq_or_imp]
        exact ⟨⟨by simpa [hnode] using ih.1.1, ih.1.2⟩, ih.2⟩

/-- The last instance is closed by the path's terminator. -/
theorem splitInstances_getLast_snd
    (init : List DevicePathNode) :
    (splitInstances tags last init).getLast?.map Prod.snd = some last := by
  induction init with
  | nil =>
      rfl
  | cons node rest ih =>
      unfold splitInstances
      split
      · obtain ⟨g, more, hg⟩ := List.exists_cons_of_ne_nil (splitInstances_ne_nil rest)
        rw [hg] at ih ⊢
        simpa [List.getLast?_cons] using ih
      · obtain ⟨⟨run, t⟩, more, hg⟩ := List.exists_cons_of_ne_nil (splitInstances_ne_nil rest)
        rw [hg] at ih ⊢
        cases more <;> simpa [consFirst, List.getLast?_cons] using ih

/-- There is one instance per END node of the path. -/
theorem length_splitInstances
    (hlast : last.deviceType = tags.END)
    (init : List DevicePathNode) :
    (splitInstances tags last init).length =
      (init ++ [last]).countP fun node => node.deviceType = tags.END := by
  induction init with
  | nil =>
      simp [splitInstances, hlast]
  | cons node rest ih =>
      unfold splitInstances
      split
      · rename_i hnode
        simp [hnode, ih]
      · rename_i hnode
        obtain ⟨⟨run, t⟩, more, hg⟩ := List.exists_cons_of_ne_nil (splitInstances_ne_nil rest)
        rw [hg] at ih ⊢
        simpa [consFirst, hnode] using ih

theorem flatten_map_nodesToBytes
    (groups : List (List DevicePathNode × DevicePathNode)) :
    (groups.map fun g => nodesToBytes (g.1 ++ [g.2])).flatten =
      nodesToBytes (groups.flatMap fun g => g.1 ++ [g.2]) := by
  induction groups with
  | nil =>
      rfl
  | cons g groups ih =>
      rw [List.map_cons, List.flatten_cons, ih, List.flatMap_cons]
      simp only [nodesToBytes_append, List.append_assoc]

end SplitInstances

end UefiDevicePath
