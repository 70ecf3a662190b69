import Fendermint.Bits
import Fendermint.Amt

namespace Fendermint.Shared

open Ipld Bits

variable {Cid Block S Address : Type} [DecidableEq Cid] (cc : Codec Cid Block S)

/-- `hash_pair`: the CID of the pair block `[left, right]`, computed without storing it. -/
def hashPair (left right : Option Cid) : Except (Abort Cid) Cid :=
  match left, right with
  | some left, some right => .ok (cc.cid (cc.ofPair left right))
  | _, _ => .error (.err .hashPairRequiresTwoCids)

/-- `hash_and_put_pair`: store the pair block `[left, right]` and return its CID. -/
def hashAndPutPair (left right : Option Cid) : Io Cid Block Cid :=
  match left, right with
  | some left, some right => put cc (cc.ofPair left right)
  | _, _ => throw (Abort.err .hashPairRequiresTwoCids)

/-- The `while new_peaks > 0` loop of `push`: pop the last two peaks, push their pair. -/
def mergePeaks : Nat → Amt Cid → Io Cid Block (Amt Cid)
  | 0, peaks => pure peaks
  | newPeaks + 1, peaks => do
      let (right, peaks) ← peaks.delete cc (← Io.lift (checkedSub peaks.count 1))
      let (left, peaks) ← peaks.delete cc (← Io.lift (checkedSub peaks.count 1))
      let peaks ← peaks.set cc peaks.count (← hashAndPutPair cc left right)
      mergePeaks newPeaks peaks

/-- `push`: the CID of the flushed peaks, and the peaks as left in memory. -/
def push (leafCount : Nat) (peaks : Amt Cid) (obj : S) : Io Cid Block (Cid × Amt Cid) := do
  let leaf ← put cc (cc.ofValue obj)
  let peaks ← peaks.set cc peaks.count leaf
  let peaks ← mergePeaks cc (trailingZeros (complement leafCount)) peaks
  peaks.flush cc

/-- The `for i in 2..peaks_count` loop of `bag_peaks`, each `get` keeping what it loaded. -/
def bagLoop (peaksCount : Nat) : List Nat → Amt Cid → Cid → Io Cid Block Cid
  | [], _, root => pure root
  | i :: is, peaks, root => do
      let (left, peaks) ← peaks.get cc (← Io.lift (checkedSub (← Io.lift (checkedSub peaksCount 1)) i))
      bagLoop peaksCount is peaks (← Io.lift (hashPair cc left (some root)))

/-- `bag_peaks`: fold the peaks from the right into the root commitment. -/
def bagPeaks (peaks : Amt Cid) : Io Cid Block Cid := do
  let peaksCount := peaks.count
  if peaksCount = 0 then
    return cc.default
  if peaksCount = 1 then
    match ← peaks.get cc 0 with
    | (some root, _) => return root
    | (none, _) => throw Abort.panic
  let (left, peaks) ← peaks.get cc (peaksCount - 2)
  let (right, peaks) ← peaks.get cc (peaksCount - 1)
  let root ← Io.lift (hashPair cc left right)
  bagLoop cc peaksCount (List.range' 2 (peaksCount - 2)) peaks root

/-- `path_for_eigen_root`: the path to the leaf in its peak, and the index of the peak. -/
def pathForEigenRoot (leafIndex leafCount : Nat) : Except (Abort Cid) (Nat × Nat) := do
  if leafIndex ≥ leafCount then
    throw (.err .leafIndexOutOfRange)
  let diff := leafIndex ^^^ leafCount
  let eigentreeHeight ← checkedSub (← checkedSub 64 (leadingZeros diff)) 1
  let mergeHeight ← checkedShl 1 eigentreeHeight
  let bitmask ← checkedSub mergeHeight 1
  let eigentreeCount := countOnes leafCount
  let offset := countOnes (leafCount &&& bitmask)
  let eigenIndex ← checkedSub (← checkedSub eigentreeCount offset) 1
  let localOffset := leafIndex &&& bitmask
  let localPath ← checkedAdd localOffset mergeHeight
  return (localPath, eigenIndex)

/-- The `for i in 1..(significant_bits - 1)` loop of `get_at`. -/
def descend (path significantBits : Nat) : List Nat → Cid × Cid → Io Cid Block (Cid × Cid)
  | [], pair => pure pair
  | i :: is, pair => do
      let bit := (path >>> (← Io.lift (checkedSub (← Io.lift (checkedSub significantBits i)) 1))) &&& 1
      let cid := if bit = 0 then pair.1 else pair.2
      match ← getCbor cc.toPair cid with
      | some pair => descend path significantBits is pair
      | none => throw (.err (.intermediateNodeNotFound cid))

/-- `get_at` from the peak on: the leaf at `path` in the tree whose root is `cid`. -/
def getInPeak (path : Nat) (cid : Cid) : Io Cid Block S := do
  if path = 1 then
    match ← getCbor cc.toValue cid with
    | some value => return value
    | none => throw (.err (.leafNotFound cid))
  let some pair ← getCbor cc.toPair cid | throw (.err (.rootNodeNotFound cid))
  let significantBits ← Io.lift (checkedSub 64 (leadingZeros path))
  let pair ← descend cc path significantBits
    (List.range' 1 ((← Io.lift (checkedSub significantBits 1)) - 1)) pair
  let cid := if path &&& 1 = 0 then pair.1 else pair.2
  match ← getCbor cc.toValue cid with
  | some leaf => return leaf
  | none => throw (.err (.leafNotFound cid))

/-- `get_at`. -/
def getAt (leafIndex leafCount : Nat) (peaks : Amt Cid) : Io Cid Block S := do
  let (path, eigenIndex) ← Io.lift (pathForEigenRoot leafIndex leafCount)
  let (some cid, _) ← peaks.get cc eigenIndex | throw (.err (.peakNotFound eigenIndex))
  getInPeak cc path cid

/-- `WriteAccess` of a machine. -/
inductive WriteAccess
  | onlyOwner
  | public

/-- `State`: an MMR with its peaks stored in an AMT. -/
structure State (Cid Address : Type) where
  owner : Address
  writeAccess : WriteAccess
  peaks : Cid
  leafCount : Nat

/-- `PushReturn`. -/
structure PushReturn (Cid : Type) where
  root : Cid
  index : Nat

namespace State

/-- `State::new`: flush an empty peaks AMT. -/
def new (creator : Address) (writeAccess : WriteAccess) : Io Cid Block (State Cid Address) := do
  let peaks ← tryCatch (Prod.fst <$> (Amt.new : Amt Cid).flush cc) fun _ => throw (Abort.err .createAmt)
  return ⟨creator, writeAccess, peaks, 0⟩

/-- `State::peak_count`. -/
def peakCount (self : State Cid Address) : Nat := countOnes self.leafCount

/-- `State::push`, returning `self` as `&mut self` leaves it, also after an early `?`. -/
def push (self : State Cid Address) (obj : S) (bs : Blockstore Cid Block) :
    Except (Abort Cid) (PushReturn Cid) × State Cid Address × Blockstore Cid Block :=
  match (Amt.load cc self.peaks).run bs with
  | (.error e, bs) => (.error e, self, bs)
  | (.ok amt, bs) =>
      match (Shared.push cc self.leafCount amt obj).run bs with
      | (.error e, bs) => (.error e, self, bs)
      | (.ok (peaks, amt), bs) =>
          let self := { self with peaks := peaks }
          match (checkedAdd self.leafCount 1 : Except (Abort Cid) Nat) with
          | .error e => (.error e, self, bs)
          | .ok leafCount =>
              let self := { self with leafCount := leafCount }
              match (bagPeaks cc amt).run bs with
              | (.error e, bs) => (.error e, self, bs)
              | (.ok root, bs) => (.ok ⟨root, self.leafCount - 1⟩, self, bs)

/-- `State::get_root`. -/
def getRoot (self : State Cid Address) : Io Cid Block Cid := do
  bagPeaks cc (← Amt.load cc self.peaks)

/-- `State::get_peaks`. -/
def getPeaks (self : State Cid Address) : Io Cid Block (List Cid) := do
  (← Amt.load cc self.peaks).values cc

/-- `State::get_leaf_at`: an error of `get_at` becomes `None`. -/
def getLeafAt (self : State Cid Address) (index : Nat) : Io Cid Block (Option S) := do
  let amt ← Amt.load cc self.peaks
  tryCatch (some <$> getAt cc index self.leafCount amt) fun
    | .err _ => pure none
    | .panic => throw Abort.panic

/-- Push `vs` one at a time up to the first call that fails; the roots returned. -/
def pushAll (self : State Cid Address) : List S → Blockstore Cid Block →
    Except (Abort Cid) (List Cid) × State Cid Address × Blockstore Cid Block
  | [], bs => (.ok [], self, bs)
  | v :: vs, bs =>
      match self.push cc v bs with
      | (.ok r, self, bs) =>
          match pushAll self vs bs with
          | (.ok roots, self, bs) => (.ok (r.root :: roots), self, bs)
          | (.error e, self, bs) => (.error e, self, bs)
      | (.error e, self, bs) => (.error e, self, bs)

end State

end Fendermint.Shared
