import Fendermint.Shared

namespace Fendermint.Atomicity

open Ipld Shared

variable {Cid Block S Address : Type} [DecidableEq Cid] {cc : Codec Cid Block S}

/-- A CID standing for the root of peak `k`. -/
def peakCid (k : Nat) : Data := .link (.int k)

/-- The first leaf node of a peaks AMT of height 1 holding 9 peaks: peaks `0` to `7`. -/
def fullLeaf : Data := Data.ofNode ⟨List.replicate 8 true, [], (List.range 8).map peakCid⟩

/-- Its second leaf node: peak `8`. -/
def lastLeaf : Data := Data.ofNode ⟨true :: List.replicate 7 false, [], [peakCid 8]⟩

/-- The root block of that AMT, linking the two leaves. -/
def peaksRoot : Data :=
  .root 1 9 (Data.ofNode ⟨[true, true, false, false, false, false, false, false], [.link fullLeaf, .link lastLeaf], []⟩)

/-- A state of 1022 values, one peak per set bit of `1022`, its peaks AMT in `faultyStore`. -/
def state1022 : State Data Unit := ⟨(), .public, .link peaksRoot, 1022⟩

/-- A store holding the three blocks of the peaks AMT, its call number `5` failing. -/
def faultyStore : Blockstore Data Data :=
  ⟨Function.update (Function.update (Function.update (fun _ => none) (.link fullLeaf) (some fullLeaf))
    (.link lastLeaf) (some lastLeaf)) (.link peaksRoot) (some peaksRoot), 0, fun k => k = 5⟩

/-- The push of the 1023rd value reads the peaks AMT lazily: `set` loads only the second leaf, the
one it writes, and `flush` keeps it cached; `bag_peaks` then reads peak `7` from the first leaf,
which no call has loaded, so its load is a call to the store, the fifth. Where that call fails,
`State::push` returns `Err` with the count advanced and the handle replaced: `push` commits before
it bags the peaks. -/
theorem push_err_after_commit :
    (state1022.peakCount = 9 ∧
      ((state1022.getPeaks dagCbor).run { faultyStore with fault := fun _ => false }).1 =
        .ok ((List.range 9).map peakCid)) ∧
    (state1022.push dagCbor (.int 1022) faultyStore).1 = .error (.err .store) ∧
    (state1022.push dagCbor (.int 1022) faultyStore).2.1.leafCount = state1022.leafCount + 1 ∧
    (state1022.push dagCbor (.int 1022) faultyStore).2.1.peaks ≠ state1022.peaks :=
  ⟨⟨rfl, rfl⟩, rfl, rfl, by decide⟩

/-- How `State::push` can return `Err`: before the commit, with the state as it was, or from
`bag_peaks` after it, with the flushed handle and the advanced count already in place. -/
theorem push_err_cases {self : State Cid Address} {v : S} {bs bs' : Blockstore Cid Block}
    {st' : State Cid Address} {e : Error Cid} (h : self.push cc v bs = (.error (.err e), st', bs')) :
    st' = self ∨ ∃ amt c peaks bs1 bs2, (Amt.load cc self.peaks).run bs = (.ok amt, bs1) ∧
      (Shared.push cc self.leafCount amt v).run bs1 = (.ok (c, peaks), bs2) ∧
      self.leafCount + 1 < 2 ^ 64 ∧ st' = { self with peaks := c, leafCount := self.leafCount + 1 } ∧
      (bagPeaks cc peaks).run bs2 = (.error (.err e), bs') := by
  rcases h1 : (Amt.load cc self.peaks).run bs with ⟨_ | amt, bs1⟩
  · simp only [State.push, h1, Prod.mk.injEq] at h
    exact .inl h.2.1.symm
  rcases h2 : (Shared.push cc self.leafCount amt v).run bs1 with ⟨_ | ⟨c, peaks⟩, bs2⟩
  · simp only [State.push, h1, h2, Prod.mk.injEq] at h
    exact .inl h.2.1.symm
  by_cases hn : self.leafCount + 1 < 2 ^ 64
  · rcases h3 : (bagPeaks cc peaks).run bs2 with ⟨_ | root, bs3⟩
    · simp only [State.push, h1, h2, checkedAdd_of_lt hn, h3, Prod.mk.injEq] at h
      exact .inr ⟨amt, c, peaks, bs1, bs2, rfl, h2, hn, h.2.1.symm,
        by rw [h3, Except.error.inj h.1, h.2.2]⟩
    · simp [State.push, h1, h2, checkedAdd_of_lt hn, h3] at h
  · simp only [State.push, h1, h2, checkedAdd, if_neg hn, Prod.mk.injEq, Except.error.injEq] at h
    nomatch h.1

theorem push_err_cases_unloaded :
    state1022.push dagCbor (.int 1022) faultyStore = (.error (.err .store),
      (state1022.push dagCbor (.int 1022) faultyStore).2.1,
      (state1022.push dagCbor (.int 1022) faultyStore).2.2) ∧
    ((state1022.push dagCbor (.int 1022) faultyStore).2.1 = state1022 ∨
      ∃ amt c peaks bs1 bs2, (Amt.load dagCbor state1022.peaks).run faultyStore = (.ok amt, bs1) ∧
        (Shared.push dagCbor state1022.leafCount amt (.int 1022)).run bs1 = (.ok (c, peaks), bs2) ∧
        state1022.leafCount + 1 < 2 ^ 64 ∧ (state1022.push dagCbor (.int 1022) faultyStore).2.1 =
          { state1022 with peaks := c, leafCount := state1022.leafCount + 1 } ∧
        (bagPeaks dagCbor peaks).run bs2 = (.error (.err .store),
          (state1022.push dagCbor (.int 1022) faultyStore).2.2)) :=
  have h : state1022.push dagCbor (.int 1022) faultyStore = (.error (.err .store),
      (state1022.push dagCbor (.int 1022) faultyStore).2.1,
      (state1022.push dagCbor (.int 1022) faultyStore).2.2) := rfl
  ⟨h, push_err_cases h⟩

end Fendermint.Atomicity
