import Fendermint.SharedSpec

namespace Fendermint.Invariant

open Ipld Bits Shared Mmr Mmr.Tree SharedSpec

variable {Cid Block S Address : Type} {cc : Codec Cid Block S} {bs bs' : Blockstore Cid Block}
  {self : State Cid Address} {vs : List S} {ts : List (Mmr.Tree S)}

/-- The state `st` holds the values `vs` in the store `bs`, its peaks being the trees `ts`. -/
structure Represents (cc : Codec Cid Block S) (st : State Cid Address) (vs : List S)
    (ts : List (Mmr.Tree S)) (bs : Blockstore Cid Block) : Prop where
  /-- `leaf_count` counts the values pushed. -/
  leafCount_eq : st.leafCount = vs.length
  /-- One perfect tree per one bit of the count, tallest first, over consecutive blocks of `vs`. -/
  peaks : Peaks vs ts
  /-- Every leaf block and pair block of the peaks is stored under its CID. -/
  stored : ∀ t ∈ ts, t.Stored cc bs
  /-- The handle names a stored root block of an AMT holding the peaks' CIDs at `0 .. k - 1`. -/
  flushed : Amt.Stored cc bs.blocks st.peaks (ts.map (cid cc))

namespace Represents

theorem peakCount_eq (h : Represents cc self vs ts bs) : self.peakCount = ts.length := by
  rw [State.peakCount, h.leafCount_eq, ← length_setBits, h.peaks.perfect.length_eq]

theorem mono (h : Represents cc self vs ts bs) (hle : bs.Le cc bs') : Represents cc self vs ts bs' :=
  ⟨h.leafCount_eq, h.peaks, fun t ht => (h.stored t ht).mono hle, h.flushed.mono hle.has⟩

theorem load_ok (hr : bs.Reliable) (h : Represents cc self vs ts bs) :
    (Amt.load cc self.peaks).Ok bs fun a bs' => a.Holds cc bs.blocks (ts.map (cid cc)) ∧ bs.Same bs' :=
  Amt.load_ok hr h.flushed

end Represents

/-- `get_root` of a represented state is the reference commitment to its values. -/
theorem getRoot_ok (hr : bs.Reliable) (h : Represents cc self vs ts bs) :
    (self.getRoot cc).Ok bs fun c bs' => c = commitment cc vs ∧ bs.Same bs' := by
  refine Io.Ok.bind ((h.load_ok hr).mono fun a bs1 ⟨ha, h1⟩ => ?_)
  exact (bagPeaks_ok (hr.of_same h1) (by rw [h1.blocks_eq]; exact ha)).mono fun c bs' hc =>
    ⟨hc.1.trans (h.peaks.commitment_eq cc).symm, h1.trans hc.2⟩

variable [DecidableEq Cid]

theorem new_ok (hr : bs.Reliable) (owner : Address) (writeAccess : WriteAccess) :
    (State.new cc owner writeAccess).Ok bs fun st bs' =>
      Represents cc st [] [] bs' ∧ st.owner = owner ∧ st.writeAccess = writeAccess ∧ bs.Le cc bs' := by
  refine Io.Ok.bind (Io.Ok.tryCatch (Io.Ok.map ((Amt.flush_ok hr Amt.new_holds).mono ?_)))
  rintro ⟨c, _⟩ bs' ⟨-, hst, hle⟩
  exact Io.Ok.pure ⟨⟨rfl, Peaks.nil, by simp, hst⟩, rfl, rfl, hle⟩

/-- One push from a represented state, on a store that fails no call: it returns the
commitment to the values and the index of the new one, and leaves a state that represents the
values with `v` appended. -/
theorem push_represents (hr : bs.Reliable) (h : Represents cc self vs ts bs)
    (hn : vs.length + 1 < 2 ^ 64) (v : S) :
    ∃ c ts' bs', self.push cc v bs = (.ok ⟨commitment cc (vs ++ [v]), vs.length⟩,
        { self with peaks := c, leafCount := vs.length + 1 }, bs') ∧
      Represents cc { self with peaks := c, leafCount := vs.length + 1 } (vs ++ [v]) ts' bs' ∧
        bs.Le cc bs' := by
  obtain ⟨a, bs1, h1, ha, hs1⟩ := h.load_ok hr
  obtain ⟨⟨c, a2⟩, bs2, h2, ts', hp', hst', ha2, hfl', hle2⟩ :=
    push_ok (hr.of_same hs1) h.peaks (fun t ht => (h.stored t ht).mono hs1.le) hn
      (by rw [hs1.blocks_eq]; exact ha) v
  obtain ⟨_, bs3, h3, rfl, hs3⟩ := bagPeaks_ok ((hr.of_same hs1).of_le hle2) ha2
  refine ⟨c, ts', bs3, ?_, ⟨by simp, hp', fun t ht => (hst' t ht).mono hs3.le,
    by rw [hs3.blocks_eq]; exact hfl'⟩, hs1.le.trans (hle2.trans hs3.le)⟩
  rw [← h.leafCount_eq] at h2 hn ⊢
  simp only [State.push, h1, h2, checkedAdd_of_lt hn, h3, Nat.add_sub_cancel, hp'.commitment_eq cc,
    ← h.leafCount_eq]

/-- Pushing `ws` one at a time from a represented state, on a store that fails no call: every
push returns `Ok` with the commitment to the values so far, and the state at the end represents
all of them. -/
theorem pushAll_represents : ∀ (ws : List S) (self : State Cid Address) (vs : List S)
    (ts : List (Mmr.Tree S)) (bs : Blockstore Cid Block), bs.Reliable → Represents cc self vs ts bs →
    vs.length + ws.length < 2 ^ 64 → ∃ st ts' bs', self.pushAll cc ws bs =
      (.ok ((List.range ws.length).map fun i => commitment cc (vs ++ ws.take (i + 1))), st, bs') ∧
      Represents cc st (vs ++ ws) ts' bs' ∧ st.owner = self.owner ∧
        st.writeAccess = self.writeAccess ∧ bs.Le cc bs'
  | [], self, vs, ts, bs, _, h, _ => ⟨self, ts, bs, rfl, by simpa using h, rfl, rfl, .refl bs⟩
  | w :: ws, self, vs, ts, bs, hr, h, hn => by
      have hlen : vs.length + 1 + ws.length = vs.length + (w :: ws).length := by simp; omega
      obtain ⟨_, ts1, bs1, h1, hrep1, hle1⟩ := push_represents hr h (by omega) w
      obtain ⟨st, ts2, bs2, h2, hrep2, hown, hwa, hle2⟩ :=
        pushAll_represents ws _ (vs ++ [w]) ts1 bs1 (hr.of_le hle1) hrep1 (by simpa [hlen])
      refine ⟨st, ts2, bs2, ?_, by simpa using hrep2, hown, hwa, hle1.trans hle2⟩
      simp only [State.pushAll, h1, h2, List.length_cons, List.range_succ_eq_map, List.map_cons,
        List.map_map]
      simp [Function.comp_def]

/-- Every list of values is held by a state that pushes into a fresh accumulator reach. -/
theorem exists_represents (cc : Codec Cid Block S) (bs : Blockstore Cid Block) (hr : bs.Reliable)
    (vs : List S) (hn : vs.length < 2 ^ 64) :
    ∃ (st : State Cid Unit) (ts : List (Mmr.Tree S)) (bs' : Blockstore Cid Block),
      bs'.Reliable ∧ Represents cc st vs ts bs' := by
  obtain ⟨st0, bs0, -, h0, -, -, hle0⟩ := @new_ok _ _ _ _ cc _ _ hr () .public
  obtain ⟨st, ts, bs', -, h, -, -, hle⟩ :=
    pushAll_represents vs st0 [] [] bs0 (hr.of_le hle0) h0 (by simpa)
  exact ⟨st, ts, bs', (hr.of_le hle0).of_le hle, by simpa using h⟩

/-- Pushing `vs` one at a time into a fresh accumulator, on a store that fails no call: every
push returns `Ok`, and the state after them represents `vs`, with one peak per one bit of the
count. -/
theorem new_pushAll_represents (owner : Address) (writeAccess : WriteAccess) (vs : List S)
    (hn : vs.length < 2 ^ 64) (hr : bs.Reliable) :
    (State.new cc owner writeAccess).Ok bs fun st bs1 => ∃ roots st' ts bs',
      st.pushAll cc vs bs1 = (.ok roots, st', bs') ∧ Represents cc st' vs ts bs' ∧
        st'.peakCount = ts.length :=
  (new_ok hr owner writeAccess).mono fun _ bs1 ⟨h, _, _, hle⟩ =>
    let ⟨st', ts, bs', hrun, hrep, _⟩ :=
      pushAll_represents vs _ [] [] bs1 (hr.of_le hle) h (by simpa using hn)
    ⟨_, st', ts, bs', hrun, hrep, hrep.peakCount_eq⟩

theorem new_pushAll_represents_three :
    ([Data.int 1, .int 2, .int 3].length < 2 ^ 64 ∧ Blockstore.empty.Reliable) ∧
      (State.new dagCbor () .public).Ok Blockstore.empty fun st bs1 => ∃ roots st' ts bs',
        st.pushAll dagCbor [.int 1, .int 2, .int 3] bs1 = (.ok roots, st', bs') ∧
          Represents dagCbor st' [.int 1, .int 2, .int 3] ts bs' ∧ st'.peakCount = ts.length :=
  ⟨⟨by decide, Blockstore.empty_reliable⟩,
    new_pushAll_represents () .public _ (by decide) Blockstore.empty_reliable⟩

/-- The roots the pushes into a fresh accumulator return are the reference commitments to the
values pushed so far, and `get_root` of the state they leave is the last of them (the null
CID before any push). -/
theorem new_pushAll_roots (owner : Address) (writeAccess : WriteAccess) (vs : List S)
    (hn : vs.length < 2 ^ 64) (hr : bs.Reliable) :
    (State.new cc owner writeAccess).Ok bs fun st bs1 =>
      (st.getRoot cc).Ok bs1 (fun c _ => c = cc.default) ∧ ∃ st' bs',
        st.pushAll cc vs bs1 =
          (.ok ((List.range vs.length).map fun i => commitment cc (vs.take (i + 1))), st', bs') ∧
        (st'.getRoot cc).Ok bs' fun c _ => c = commitment cc vs :=
  (new_ok hr owner writeAccess).mono fun _ bs1 ⟨h, _, _, hle⟩ =>
    let ⟨st', _, bs', hrun, hrep, _, _, hle'⟩ :=
      pushAll_represents vs _ [] [] bs1 (hr.of_le hle) h (by simpa using hn)
    ⟨(getRoot_ok (hr.of_le hle) h).mono fun _ _ hc => by simpa using hc.1,
      st', bs', by simpa using hrun, (getRoot_ok ((hr.of_le hle).of_le hle') hrep).mono
        fun _ _ hc => by simpa using hc.1⟩

theorem new_pushAll_roots_three :
    ([Data.int 1, .int 2, .int 3].length < 2 ^ 64 ∧ Blockstore.empty.Reliable) ∧
      (State.new dagCbor () .public).Ok Blockstore.empty fun st bs1 =>
        (st.getRoot dagCbor).Ok bs1 (fun c _ => c = dagCbor.default) ∧ ∃ st' bs',
          st.pushAll dagCbor [.int 1, .int 2, .int 3] bs1 = (.ok ((List.range 3).map fun i =>
            commitment dagCbor ([.int 1, .int 2, .int 3].take (i + 1))), st', bs') ∧
          (st'.getRoot dagCbor).Ok bs' fun c _ => c = commitment dagCbor [.int 1, .int 2, .int 3] :=
  ⟨⟨by decide, Blockstore.empty_reliable⟩,
    new_pushAll_roots () .public [Data.int 1, Data.int 2, Data.int 3] (by decide) Blockstore.empty_reliable⟩

end Fendermint.Invariant
