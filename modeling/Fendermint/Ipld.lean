import Mathlib.Algebra.Group.Nat.Basic
import Mathlib.Logic.Function.Basic

namespace Fendermint.Ipld

variable {Cid Block S α β : Type}

/-- `CollapsedNode`: the bitmap of the set slots, and the child CIDs or the values. -/
structure Collapsed (Cid : Type) where
  bmap : List Bool
  links : List Cid
  values : List Cid
  deriving DecidableEq

/-- The blocks the accumulator writes, values, pairs `[Cid; 2]` and AMT nodes and roots, and
`cid`, `Cid::new_v1(DAG_CBOR, ..)` of their digest, taken injective. -/
structure Codec (Cid Block S : Type) where
  cid : Block → Cid
  default : Cid
  ofValue : S → Block
  toValue : Block → Option S
  ofPair : Cid → Cid → Block
  toPair : Block → Option (Cid × Cid)
  ofNode : Collapsed Cid → Block
  toNode : Block → Option (Collapsed Cid)
  ofRoot : Nat → Nat → Collapsed Cid → Block
  toRoot : Block → Option (Nat × Nat × Collapsed Cid)
  cid_injective : Function.Injective cid
  cid_ne_default : ∀ b, cid b ≠ default
  toValue_ofValue : ∀ v, toValue (ofValue v) = some v
  toPair_ofPair : ∀ l r, toPair (ofPair l r) = some (l, r)
  toNode_ofNode : ∀ n, toNode (ofNode n) = some n
  toRoot_ofRoot : ∀ h c n, toRoot (ofRoot h c n) = some (h, c, n)

/-- The `anyhow` errors of `shared.rs`, one per message, and those of its collaborators. -/
inductive Error (Cid : Type)
  | store
  | decode
  -- A block that does not encode: a node with a link not yet flushed.
  | encode
  -- `Error::CidNotFound` of the AMT: no block under a CID it links to.
  | cidNotFound (cid : Cid)
  -- `Error::OutOfRange`: an index above `MAX_INDEX`.
  | outOfRange (index : Nat)
  -- `Error::MaxHeight` of `Amt::load`.
  | maxHeight (height : Nat)
  -- "accumulator actor failed to create empty Amt: {e}"
  | createAmt
  -- "hash_pair requires two CIDs"
  | hashPairRequiresTwoCids
  -- "`leaf_index` must less than `leaf_count`"
  | leafIndexOutOfRange
  -- "failed to get peak at index {eigen_index}"
  | peakNotFound (index : Nat)
  -- "failed to get leaf for cid {cid}"
  | leafNotFound (cid : Cid)
  -- "failed to get eigentree root node for cid {cid}"
  | rootNodeNotFound (cid : Cid)
  -- "failed to get eigentree intermediate node for cid {cid}"
  | intermediateNodeNotFound (cid : Cid)
  deriving DecidableEq

/-- How a call ends without a value: an error, or a panic. -/
inductive Abort (Cid : Type)
  | err (e : Error Cid)
  | panic
  deriving DecidableEq

/-- A blockstore: its blocks, the number of calls made, and which calls fail. -/
structure Blockstore (Cid Block : Type) where
  blocks : Cid → Option Block
  clock : Nat
  fault : Nat → Bool

/-- A call taking `&BS` and returning `anyhow::Result`, with the store it leaves. -/
structure Io (Cid Block α : Type) where
  run : Blockstore Cid Block → Except (Abort Cid) α × Blockstore Cid Block

instance : Monad (Io Cid Block) where
  pure a := ⟨fun bs => (.ok a, bs)⟩
  bind m f := ⟨fun bs => match m.run bs with
    | (.ok a, bs) => (f a).run bs
    | (.error e, bs) => (.error e, bs)⟩

instance : MonadExceptOf (Abort Cid) (Io Cid Block) where
  throw e := ⟨fun bs => (.error e, bs)⟩
  tryCatch m h := ⟨fun bs => match m.run bs with
    | (.error e, bs) => (h e).run bs
    | r => r⟩

namespace Io

def lift (x : Except (Abort Cid) α) : Io Cid Block α := ⟨fun bs => (x, bs)⟩

@[simp] theorem run_pure (a : α) (bs : Blockstore Cid Block) :
    (pure a : Io Cid Block α).run bs = (.ok a, bs) := rfl

theorem pure_bind (a : α) (f : α → Io Cid Block β) : (pure a >>= f) = f a := rfl

theorem run_bind (m : Io Cid Block α) (f : α → Io Cid Block β) (bs : Blockstore Cid Block) :
    (m >>= f).run bs = match m.run bs with
      | (.ok a, bs) => (f a).run bs
      | (.error e, bs) => (.error e, bs) := rfl

@[simp] theorem run_throw (e : Abort Cid) (bs : Blockstore Cid Block) :
    (throw e : Io Cid Block α).run bs = (.error e, bs) := rfl

@[simp] theorem run_lift (x : Except (Abort Cid) α) (bs : Blockstore Cid Block) :
    (lift x : Io Cid Block α).run bs = (x, bs) := rfl

theorem run_map (f : α → β) (m : Io Cid Block α) (bs : Blockstore Cid Block) :
    (f <$> m).run bs = match m.run bs with
      | (.ok a, bs) => (.ok (f a), bs)
      | (.error e, bs) => (.error e, bs) := rfl

theorem run_tryCatch (m : Io Cid Block α) (h : Abort Cid → Io Cid Block α) (bs : Blockstore Cid Block) :
    (tryCatch m h : Io Cid Block α).run bs = match m.run bs with
      | (.error e, bs) => (h e).run bs
      | r => r := rfl

end Io

/-- `a - b` on an unsigned integer, which panics where it would underflow. -/
def checkedSub (a b : Nat) : Except (Abort Cid) Nat :=
  if b ≤ a then .ok (a - b) else .error .panic

/-- `a + b` on a `u64`, which panics where it would overflow. -/
def checkedAdd (a b : Nat) : Except (Abort Cid) Nat :=
  if a + b < 2 ^ 64 then .ok (a + b) else .error .panic

/-- `x << s` on a `u64`, which panics where the shift is not below the width. -/
def checkedShl (x s : Nat) : Except (Abort Cid) Nat :=
  if s < 64 then .ok (x <<< s % 2 ^ 64) else .error .panic

@[simp] theorem checkedSub_of_le {a b : Nat} (h : b ≤ a) : (checkedSub a b : Except (Abort Cid) Nat) = .ok (a - b) := if_pos h

@[simp] theorem checkedAdd_of_lt {a b : Nat} (h : a + b < 2 ^ 64) : (checkedAdd a b : Except (Abort Cid) Nat) = .ok (a + b) := if_pos h

@[simp] theorem checkedShl_of_lt {x s : Nat} (h : s < 64) :
    (checkedShl x s : Except (Abort Cid) Nat) = .ok (x <<< s % 2 ^ 64) := if_pos h

-- Proved through `Except.bind` rather than by `rfl`: as an `rfl` lemma `simp` would leave each
-- of its steps to the kernel to re-check by unfolding the whole `do` block.
@[simp] theorem ok_bind {ε : Type} (a : α) (f : α → Except ε β) : (Except.ok a >>= f) = f a := by
  show Except.bind (.ok a) f = f a
  rfl

section Store

variable (cc : Codec Cid Block S)

/-- One call to the blockstore: counted, and failing where the store's behaviour says so. -/
def tick : Io Cid Block Unit :=
  ⟨fun bs => (if bs.fault bs.clock then .error (.err .store) else .ok (), { bs with clock := bs.clock + 1 })⟩

/-- `put_cbor` of an encoded block: store it under its CID and return the CID. -/
def put [DecidableEq Cid] (b : Block) : Io Cid Block Cid := do
  tick
  ⟨fun bs => (.ok (cc.cid b), { bs with blocks := Function.update bs.blocks (cc.cid b) (some b) })⟩

/-- `Blockstore::get`: the block stored under `c`, if any. -/
def getBlock (c : Cid) : Io Cid Block (Option Block) := do
  tick
  ⟨fun bs => (.ok (bs.blocks c), bs)⟩

/-- `get_cbor`: `Ok(None)` for a missing block, an error for one that does not decode. -/
def getCbor {T : Type} (decode : Block → Option T) (c : Cid) : Io Cid Block (Option T) := do
  match ← getBlock c with
  | none => pure none
  | some b =>
      match decode b with
      | some t => pure (some t)
      | none => throw (Abort.err .decode)

namespace Blockstore

def Reliable (bs : Blockstore Cid Block) : Prop := ∀ k, bs.fault k = false

def Has (bs : Blockstore Cid Block) (b : Block) : Prop := bs.blocks (cc.cid b) = some b

/-- `bs'` continues `bs`: the same behaviour, and every block `bs` holds under its CID. -/
structure Le (bs bs' : Blockstore Cid Block) : Prop where
  fault_eq : bs'.fault = bs.fault
  has : ∀ b, bs.Has cc b → bs'.Has cc b

/-- `bs'` is `bs` after reads only: the same blocks and the same behaviour. -/
structure Same (bs bs' : Blockstore Cid Block) : Prop where
  blocks_eq : bs'.blocks = bs.blocks
  fault_eq : bs'.fault = bs.fault

variable {cc} {bs bs' bs'' : Blockstore Cid Block}

theorem Same.refl (bs : Blockstore Cid Block) : bs.Same bs := ⟨rfl, rfl⟩

theorem Same.trans (h : bs.Same bs') (h' : bs'.Same bs'') : bs.Same bs'' :=
  ⟨h'.blocks_eq.trans h.blocks_eq, h'.fault_eq.trans h.fault_eq⟩

theorem Le.refl (bs : Blockstore Cid Block) : bs.Le cc bs := ⟨rfl, fun _ h => h⟩

theorem Le.trans (h : bs.Le cc bs') (h' : bs'.Le cc bs'') : bs.Le cc bs'' :=
  ⟨h'.fault_eq.trans h.fault_eq, fun b hb => h'.has b (h.has b hb)⟩

theorem Same.le (h : bs.Same bs') : bs.Le cc bs' :=
  ⟨h.fault_eq, fun b hb => by rw [Has, h.blocks_eq]; exact hb⟩

theorem Reliable.of_le (hr : bs.Reliable) (h : bs.Le cc bs') : bs'.Reliable := fun k => by
  rw [h.fault_eq]; exact hr k

theorem Reliable.of_same (hr : bs.Reliable) (h : bs.Same bs') : bs'.Reliable := fun k => by
  rw [h.fault_eq]; exact hr k

end Blockstore

/-- `m` run against `bs` returns `Ok`, and its value and the store it leaves satisfy `post`. -/
def Io.Ok (m : Io Cid Block α) (bs : Blockstore Cid Block)
    (post : α → Blockstore Cid Block → Prop) : Prop :=
  ∃ a bs', m.run bs = (.ok a, bs') ∧ post a bs'

namespace Io.Ok

variable {m : Io Cid Block α} {f : α → Io Cid Block β} {bs : Blockstore Cid Block}
  {p q : α → Blockstore Cid Block → Prop}

theorem bind {post : β → Blockstore Cid Block → Prop}
    (h : m.Ok bs fun a bs' => (f a).Ok bs' post) : (m >>= f).Ok bs post := by
  obtain ⟨a, bs', hm, b, bs'', hf, hp⟩ := h
  exact ⟨b, bs'', by rw [Io.run_bind, hm]; exact hf, hp⟩

theorem pure {a : α} (h : p a bs) : (Pure.pure a : Io Cid Block α).Ok bs p := ⟨a, bs, rfl, h⟩

theorem mono (h : m.Ok bs p) (hpq : ∀ a bs', p a bs' → q a bs') : m.Ok bs q := by
  obtain ⟨a, bs', hm, hp⟩ := h
  exact ⟨a, bs', hm, hpq a bs' hp⟩

theorem lift {x : Except (Abort Cid) α} {a : α} (hx : x = .ok a) (h : p a bs) :
    (Io.lift x : Io Cid Block α).Ok bs p := ⟨a, bs, by rw [Io.run_lift, hx], h⟩

theorem tryCatch {h : Abort Cid → Io Cid Block α} (hm : m.Ok bs p) : (tryCatch m h).Ok bs p := by
  obtain ⟨a, bs', hrun, hp⟩ := hm
  exact ⟨a, bs', by rw [Io.run_tryCatch, hrun], hp⟩

theorem tryCatch_error {h : Abort Cid → Io Cid Block α} {e : Abort Cid} {bs' : Blockstore Cid Block}
    (hm : m.run bs = (.error e, bs')) (hh : (h e).Ok bs' p) : (MonadExcept.tryCatch m h).Ok bs p := by
  obtain ⟨a, bs'', hrun, hp⟩ := hh
  exact ⟨a, bs'', by rw [Io.run_tryCatch, hm]; exact hrun, hp⟩

theorem map {f : α → β} {q : β → Blockstore Cid Block → Prop} (hm : m.Ok bs fun a bs' => q (f a) bs') :
    (f <$> m).Ok bs q := by
  obtain ⟨a, bs', hrun, hq⟩ := hm
  exact ⟨f a, bs', by rw [Io.run_map, hrun], hq⟩

end Io.Ok

variable {cc} {bs : Blockstore Cid Block}

theorem tick_ok (hr : bs.Reliable) :
    (tick : Io Cid Block Unit).Ok bs fun _ bs' => bs.Same bs' :=
  ⟨(), { bs with clock := bs.clock + 1 }, by simp [tick, hr bs.clock], rfl, rfl⟩

theorem put_ok [DecidableEq Cid] (hr : bs.Reliable) (b : Block) :
    (put cc b).Ok bs fun c bs' => c = cc.cid b ∧ bs'.Has cc b ∧ bs.Le cc bs' := by
  refine Io.Ok.bind ((tick_ok hr).mono fun _ bs' h => ?_)
  refine ⟨_, _, rfl, rfl, by simp [Blockstore.Has], h.fault_eq, fun b' hb' => ?_⟩
  simp only [Blockstore.Has, Function.update_apply]
  split
  · rename_i he
    rw [cc.cid_injective he]
  · rw [h.blocks_eq]; exact hb'

theorem getBlock_ok (hr : bs.Reliable) (c : Cid) :
    (getBlock c : Io Cid Block (Option Block)).Ok bs fun o bs' => o = bs.blocks c ∧ bs.Same bs' :=
  Io.Ok.bind ((tick_ok hr).mono fun _ bs' h => ⟨_, _, rfl, by rw [h.blocks_eq], h⟩)

theorem getCbor_ok {T : Type} {decode : Block → Option T} {c : Cid} {b : Block} {t : T}
    (hr : bs.Reliable) (hc : bs.blocks c = some b) (hd : decode b = some t) :
    (getCbor decode c).Ok bs fun o bs' => o = some t ∧ bs.Same bs' :=
  Io.Ok.bind ((getBlock_ok hr c).mono fun o bs' h => by
    rw [h.1, hc]
    dsimp only
    rw [hd]
    exact Io.Ok.pure ⟨rfl, h.2⟩)

end Store

/-- The IPLD data model under a digest that never collides: a CID is a link to its block. -/
inductive Data
  | null
  | link (b : Data)
  | int (n : Nat)
  | bytes (b : List Nat)
  | pair (l r : Data)
  | nil
  | cons (hd tl : Data)
  | node (bmap : List Bool) (links values : Data)
  | root (height count : Nat) (node : Data)
  deriving DecidableEq

namespace Data

def ofList : List Data → Data
  | [] => nil
  | d :: ds => cons d (ofList ds)

def toList : Data → Option (List Data)
  | nil => some []
  | cons d ds => (toList ds).map (d :: ·)
  | _ => none

def toPair : Data → Option (Data × Data)
  | pair l r => some (l, r)
  | _ => none

def ofNode (n : Collapsed Data) : Data := node n.bmap (ofList n.links) (ofList n.values)

def toNode : Data → Option (Collapsed Data)
  | node bmap links values => do some ⟨bmap, ← toList links, ← toList values⟩
  | _ => none

def toRoot : Data → Option (Nat × Nat × Collapsed Data)
  | root h c n => (toNode n).map ((h, c, ·))
  | _ => none

theorem toList_ofList (ds : List Data) : toList (ofList ds) = some ds := by
  induction ds with
  | nil => rfl
  | cons d ds ih => simp [ofList, toList, ih]

theorem toNode_ofNode (n : Collapsed Data) : toNode (ofNode n) = some n := by
  simp [ofNode, toNode, toList_ofList]

end Data

/-- DAG-CBOR over `Data`, values encoded as themselves. -/
def dagCbor : Codec Data Data Data where
  cid := .link
  default := .null
  ofValue := id
  toValue := some
  ofPair := .pair
  toPair := Data.toPair
  ofNode := Data.ofNode
  toNode := Data.toNode
  ofRoot h c n := .root h c (Data.ofNode n)
  toRoot := Data.toRoot
  cid_injective _ _ h := Data.link.inj h
  cid_ne_default _ h := Data.noConfusion h
  toValue_ofValue _ := rfl
  toPair_ofPair _ _ := rfl
  toNode_ofNode := Data.toNode_ofNode
  toRoot_ofRoot _ _ n := by simp [Data.toRoot, Data.toNode_ofNode]

/-- `PushParams`, a `strict_bytes` byte string, as DAG-CBOR encodes it. -/
def pushParams : Codec Data Data (List Nat) where
  cid := .link
  default := .null
  ofValue := .bytes
  toValue := fun
    | .bytes b => some b
    | _ => none
  ofPair := .pair
  toPair := Data.toPair
  ofNode := Data.ofNode
  toNode := Data.toNode
  ofRoot h c n := .root h c (Data.ofNode n)
  toRoot := Data.toRoot
  cid_injective _ _ h := Data.link.inj h
  cid_ne_default _ h := Data.noConfusion h
  toValue_ofValue _ := rfl
  toPair_ofPair _ _ := rfl
  toNode_ofNode := Data.toNode_ofNode
  toRoot_ofRoot _ _ n := by simp [Data.toRoot, Data.toNode_ofNode]

def Blockstore.empty : Blockstore Data Data := ⟨fun _ => none, 0, fun _ => false⟩

theorem Blockstore.empty_reliable : Blockstore.empty.Reliable := fun _ => rfl

/-- A store holding every block under its CID, failing no call. -/
def Blockstore.full : Blockstore Data Data :=
  ⟨fun c => match c with
    | .link b => some b
    | _ => none, 0, fun _ => false⟩

theorem Blockstore.full_reliable : Blockstore.full.Reliable := fun _ => rfl

end Fendermint.Ipld
