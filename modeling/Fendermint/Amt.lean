import Fendermint.Ipld

namespace Fendermint

open Ipld

/-! The peaks AMT, `fvm_ipld_amt::Amt<Cid, &BS>` of bit width 3. The root node is in memory once
the root block is loaded; a child is loaded the first time an operation reaches it, and its
link keeps it in a cache; `set` and `delete` leave the nodes they change dirty, in memory, and
`flush` stores them depth first. -/

mutual
/-- `Node<Cid>`: a leaf holds the values of its slots, a link node a link to a child per slot. -/
inductive Node (Cid : Type)
  | leaf (vals : List (Option Cid))
  | link (links : List (Option (Link Cid)))

/-- `Link<Cid>`: a child by its CID, with the node once loaded in the cache, or a child changed
since the last flush, in memory. -/
inductive Link (Cid : Type)
  | cid (c : Cid) (cache : Option (Node Cid))
  | dirty (n : Node Cid)
end

/-- `Amt<Cid, BS>`: the root node in memory, with the height and count its root block records. -/
structure Amt (Cid : Type) where
  height : Nat
  count : Nat
  root : Node Cid

namespace Amt

/-- `MAX_INDEX`. -/
def maxIndex : Nat := 2 ^ 64 - 2

/-- `MAX_HEIGHT`. -/
def maxHeight : Nat := 64

/-- `nodes_for_height(3, height)`: the indices a child of a node at height `height` covers,
saturated at `u64::MAX`. -/
def nodesForHeight (height : Nat) : Nat :=
  if 64 ≤ 3 * height then 2 ^ 64 - 1 else 2 ^ (3 * height)

/-- `init_sized_vec(3)`. -/
def emptySlots {α : Type} : List (Option α) := List.replicate 8 none

end Amt

open Amt

variable {Cid Block S : Type} (cc : Codec Cid Block S)

/-- The CID a link serializes as; a dirty one has none. -/
def Link.cid? : Link Cid → Option Cid
  | .cid c _ => some c
  | .dirty _ => none

/-- The link once its node has been used and left as `n`: a cache keeps it, a dirty link holds
it. -/
def Link.withNode : Link Cid → Node Cid → Link Cid
  | .cid c _, n => .cid c (some n)
  | .dirty _, n => .dirty n

/-- The slots of the bitmap filled in order with `xs`; `none` where the set bits and `xs` differ
in number. -/
def fill {α : Type} : List Bool → List α → Option (List (Option α))
  | [], [] => some []
  | [], _ :: _ => none
  | false :: bmap, xs => (none :: ·) <$> fill bmap xs
  | true :: bmap, x :: xs => (some x :: ·) <$> fill bmap xs
  | true :: _, [] => none

/-- `CollapsedNode::expand`: links and values together, or a bitmap that is not one byte, are
rejected; without links the node is a leaf. -/
def Ipld.Collapsed.expand (n : Collapsed Cid) : Option (Node Cid) :=
  if !n.links.isEmpty && !n.values.isEmpty then none
  else if n.bmap.length ≠ 8 then none
  else if !n.links.isEmpty then (fill n.bmap n.links).map fun cs => .link (cs.map (·.map (.cid · none)))
  else (fill n.bmap n.values).map .leaf

namespace Node

/-- `Node::is_empty`. -/
def isEmpty : Node Cid → Bool
  | leaf vals => vals.all Option.isNone
  | link links => links.all Option.isNone

/-- `Serialize for Node`: the bitmap of the set slots and their contents. A dirty link does not
serialize. -/
def collapse : Node Cid → Option (Collapsed Cid)
  | leaf vals => some ⟨vals.map Option.isSome, [], vals.filterMap id⟩
  | link links => (links.mapM fun (o : Option (Link Cid)) => o.mapM Link.cid?).map fun cs =>
      ⟨cs.map Option.isSome, cs.filterMap id, []⟩

end Node

/-- The node under `c`: `get_cbor::<CollapsedNode>`, then `expand`. -/
def loadNode (c : Cid) : Io Cid Block (Node Cid) := do
  match ← getCbor (fun b => (cc.toNode b).bind Collapsed.expand) c with
  | some n => pure n
  | none => throw (Abort.err (.cidNotFound c))

/-- The node behind a link: `get_or_try_init` of its cache, loading it if the cache is empty. -/
def Link.node : Link Cid → Io Cid Block (Node Cid)
  | .dirty n => pure n
  | .cid _ (some n) => pure n
  | .cid c none => loadNode cc c

namespace Node

/-- `Node::get` at height `height`, with the node as the caches it fills leave it. A link node at
height 0 is malformed: descending computes `height - 1`, which overflows. -/
def get : Nat → Node Cid → Nat → Io Cid Block (Option Cid × Node Cid)
  | _, leaf vals, i => pure (vals.getD i none, leaf vals)
  | 0, link links, i =>
      match links.getD i none with
      | none => pure (none, link links)
      | some _ => throw Abort.panic
  | h + 1, link links, i => do
      let k := i / nodesForHeight (h + 1)
      match links.getD k none with
      | none => pure (none, link links)
      | some l =>
          let (v, n) ← get h (← l.node cc) (i % nodesForHeight (h + 1))
          pure (v, link (links.set k (some (l.withNode n))))

/-- The child `Node::set` descends into from a node at height `h + 1`: the node behind the link,
or a new empty one where the slot is empty, a leaf at height 1. -/
def setChild (h : Nat) : Option (Link Cid) → Io Cid Block (Node Cid)
  | some l => l.node cc
  | none => pure (if h = 0 then leaf emptySlots else link emptySlots)

/-- `Node::set` at height `height`: the value replaced. The child on the path becomes dirty. -/
def set : Nat → Node Cid → Nat → Cid → Io Cid Block (Option Cid × Node Cid)
  | 0, leaf vals, i, v =>
      if i < vals.length then pure (vals.getD i none, leaf (vals.set i (some v)))
      else throw Abort.panic
  | 0, link _, _, _ => throw Abort.panic
  | _ + 1, leaf _, _, _ => throw Abort.panic
  | h + 1, link links, i, v => do
      let k := i / nodesForHeight (h + 1)
      if k < links.length then
        let (old, n) ← set h (← setChild cc h (links.getD k none)) (i % nodesForHeight (h + 1)) v
        pure (old, link (links.set k (some (.dirty n))))
      else throw Abort.panic

/-- `Node::delete` at height `height`: the value removed. A child left empty is unlinked, one
that changed becomes dirty. -/
def delete : Nat → Node Cid → Nat → Io Cid Block (Option Cid × Node Cid)
  | _, leaf vals, i => pure (vals.getD i none, leaf (vals.set i none))
  | 0, link links, i =>
      if i < links.length then
        match links.getD i none with
        | none => pure (none, link links)
        | some _ => throw Abort.panic
      else throw Abort.panic
  | h + 1, link links, i => do
      let k := i / nodesForHeight (h + 1)
      if k < links.length then
        match links.getD k none with
        | none => pure (none, link links)
        | some l =>
            let (old, n) ← delete h (← l.node cc) (i % nodesForHeight (h + 1))
            match old with
            | none => pure (none, link (links.set k (some (l.withNode n))))
            | some _ => pure (old, link (links.set k (if n.isEmpty then none else some (.dirty n))))
      else throw Abort.panic

/-- The `while` loop of `Amt::delete`: while the root has no child but the first, that child
becomes the root, loaded if need be. -/
def collapseRoot : Nat → Node Cid → Io Cid Block (Nat × Node Cid)
  | 0, n => pure (0, n)
  | _ + 1, leaf _ => throw Abort.panic
  | h + 1, link links =>
      if (links.drop 1).all Option.isNone then
        match links.head? with
        | some (some l) => do collapseRoot h (← l.node cc)
        | _ => throw Abort.panic
      else pure (h + 1, link links)

/-- `put_cbor` of a node. -/
def putNode [DecidableEq Cid] (n : Node Cid) : Io Cid Block Cid :=
  match n.collapse with
  | some c => put cc (cc.ofNode c)
  | none => throw (Abort.err .encode)

mutual
/-- `Node::flush`: every dirty child stored, depth first, and kept in the cache of its new link. -/
def flush [DecidableEq Cid] : Node Cid → Io Cid Block (Node Cid)
  | leaf vals => pure (leaf vals)
  | link links => link <$> flushLinks links

/-- The loop of `Node::flush` over the slots of a link node. -/
def flushLinks [DecidableEq Cid] : List (Option (Link Cid)) → Io Cid Block (List (Option (Link Cid)))
  | [] => pure []
  | some (.dirty n) :: links => do
      let n ← flush n
      let c ← putNode cc n
      (some (.cid c (some n)) :: ·) <$> flushLinks links
  | o :: links => (o :: ·) <$> flushLinks links
end

/-- The loop of `Node::for_each_while` over the slots of a link node, `child` collecting the
values under each child. -/
def valuesLinks (child : Node Cid → Io Cid Block (List Cid)) :
    List (Option (Link Cid)) → Io Cid Block (List Cid)
  | [] => pure []
  | none :: links => valuesLinks child links
  | some l :: links => do
      let vs ← child (← l.node cc)
      return vs ++ (← valuesLinks child links)

/-- `Node::for_each_while` at height `height`, collecting the values in index order. -/
def values : Nat → Node Cid → Io Cid Block (List Cid)
  | _, leaf vals => pure (vals.filterMap id)
  | 0, link links => if links.all Option.isNone then pure [] else throw Abort.panic
  | h + 1, link links => valuesLinks cc (values h) links

end Node

namespace Amt

/-- `Amt::new_with_bit_width(store, 3)`. -/
def new : Amt Cid := ⟨0, 0, .leaf emptySlots⟩

/-- A root block as `get_cbor::<Root>` reads it, its node expanded. -/
def decode (b : Block) : Option (Amt Cid) :=
  (cc.toRoot b).bind fun (height, count, n) => n.expand.map (⟨height, count, ·⟩)

/-- `Amt::load`. -/
def load (c : Cid) : Io Cid Block (Amt Cid) := do
  match ← getCbor (decode cc) c with
  | none => throw (Abort.err (.cidNotFound c))
  | some a => if maxHeight < a.height then throw (Abort.err (.maxHeight a.height)) else pure a

/-- `Amt::get`, with the AMT as the caches it fills leave it. -/
def get (a : Amt Cid) (i : Nat) : Io Cid Block (Option Cid × Amt Cid) := do
  if maxIndex < i then throw (Abort.err (.outOfRange i))
  if nodesForHeight (a.height + 1) ≤ i then return (none, a)
  let (v, root) ← a.root.get cc a.height i
  return (v, { a with root })

/-- The `while` loop of `Amt::set` growing the tree until index `i` fits under the root: the
root moves down to the first slot of a new one. `nodes_for_height` saturates from height 22,
so the loop runs at most 22 times. -/
def grow (i : Nat) : Nat → Amt Cid → Amt Cid
  | 0, a => a
  | fuel + 1, a =>
      if nodesForHeight (a.height + 1) ≤ i then
        grow i fuel ⟨a.height + 1, a.count,
          .link (if a.root.isEmpty then emptySlots else some (.dirty a.root) :: List.replicate 7 none)⟩
      else a

/-- `Amt::set`. -/
def set (a : Amt Cid) (i : Nat) (v : Cid) : Io Cid Block (Amt Cid) := do
  if maxIndex < i then throw (Abort.err (.outOfRange i))
  let a := grow i 22 a
  let (old, root) ← a.root.set cc a.height i v
  let count ← if old.isNone then Io.lift (checkedAdd a.count 1) else pure a.count
  return { a with root, count }

/-- `Amt::delete`: the value removed. The root is reset once empty, and collapsed while it has
one child. -/
def delete (a : Amt Cid) (i : Nat) : Io Cid Block (Option Cid × Amt Cid) := do
  if maxIndex < i then throw (Abort.err (.outOfRange i))
  if nodesForHeight (a.height + 1) ≤ i then return (none, a)
  let (old, root) ← a.root.delete cc a.height i
  if old.isNone then return (none, { a with root })
  let count ← Io.lift (checkedSub a.count 1)
  if root.isEmpty then return (old, ⟨0, count, .leaf emptySlots⟩)
  let (height, root) ← root.collapseRoot cc a.height
  return (old, ⟨height, count, root⟩)

/-- `Amt::flush`: the dirty nodes stored, then the root block; its CID, and the AMT with the
stored nodes kept in the caches. -/
def flush [DecidableEq Cid] (a : Amt Cid) : Io Cid Block (Cid × Amt Cid) := do
  let root ← a.root.flush cc
  match root.collapse with
  | none => throw (Abort.err .encode)
  | some n => return (← put cc (cc.ofRoot a.height a.count n), { a with root })

/-- `Amt::for_each`, collecting the values in index order. -/
def values (a : Amt Cid) : Io Cid Block (List Cid) := a.root.values cc a.height

end Amt

end Fendermint
