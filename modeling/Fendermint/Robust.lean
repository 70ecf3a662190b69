import Fendermint.Faults
import Fendermint.Lookup

namespace Fendermint.Robust

open Ipld Bits Shared Mmr Mmr.Tree SharedSpec Invariant EigenPath Lookup Faults

variable {Cid Block S Address : Type} {cc : Codec Cid Block S} {bs bs' : Blockstore Cid Block}
  {self : State Cid Address} {vs : List S} {ts : List (Mmr.Tree S)}

/-- Whether the trees are stored depends on the blocks alone, not on how the store behaves. -/
theorem stored_of_blocks_eq (h : bs'.blocks = bs.blocks) :
    ∀ {t : Mmr.Tree S}, t.Stored cc bs → t.Stored cc bs'
  | leaf _, ht => by rwa [Stored, Blockstore.Has, h]
  | node _ _, ⟨hn, hl, hr⟩ =>
      ⟨by rwa [Blockstore.Has, h], stored_of_blocks_eq h hl, stored_of_blocks_eq h hr⟩

theorem represents_of_blocks_eq (h : Represents cc self vs ts bs) (hb : bs'.blocks = bs.blocks) :
    Represents cc self vs ts bs' :=
  ⟨h.leafCount_eq, h.peaks, fun t ht => stored_of_blocks_eq hb (h.stored t ht), hb ▸ h.flushed⟩

theorem represents_healed (h : Represents cc self vs ts bs) : Represents cc self vs ts (healed bs) :=
  represents_of_blocks_eq h rfl

theorem represents_of_healed (h : Represents cc self vs ts (healed bs)) : Represents cc self vs ts bs :=
  represents_of_blocks_eq h rfl

/-- The store `bs` failing its call `k` and no other. -/
def failingAt (bs : Blockstore Cid Block) (k : Nat) : Blockstore Cid Block :=
  { bs with fault := fun j => j = k }

/-- `get_peaks` of a represented state: the CIDs of the reference peaks, tallest first. -/
theorem getPeaks_ok (hr : bs.Reliable) (h : Represents cc self vs ts bs) :
    (self.getPeaks cc).Ok bs fun ps bs' =>
      ps = mountainRoots cc (setBits vs.length) (vs.map (leafCid cc)) ∧ bs.Same bs' := by
  refine Io.Ok.bind ((h.load_ok hr).mono fun a bs1 ⟨ha, h1⟩ => ?_)
  exact (Amt.values_ok (hr.of_same h1) (by rw [h1.blocks_eq]; exact ha)).mono fun ps bs' hps =>
    ⟨hps.1.trans (h.peaks.map_cid cc), h1.trans hps.2⟩

/-- Whatever calls of the store fail, an `Ok` of `get_root` is the commitment to the values. -/
theorem getRoot_any (h : Represents cc self vs ts bs) {c : Cid}
    (hrun : (self.getRoot cc).run bs = (.ok c, bs')) : c = commitment cc vs :=
  ((getRoot_readOnly cc self).transparent.post hrun (getRoot_ok (healed_reliable bs) (represents_healed h))).1

theorem getPeaks_any (h : Represents cc self vs ts bs) {ps : List Cid}
    (hrun : (self.getPeaks cc).run bs = (.ok ps, bs')) :
    ps = mountainRoots cc (setBits vs.length) (vs.map (leafCid cc)) :=
  ((getPeaks_readOnly cc self).transparent.post hrun (getPeaks_ok (healed_reliable bs) (represents_healed h))).1

theorem getLeafAt_any (h : Represents cc self vs ts bs) (hn : vs.length < 2 ^ 64) {i : Nat} {v : S}
    (hrun : (self.getLeafAt cc i).run bs = (.ok (some v), bs')) : vs[i]? = some v := by
  obtain ⟨_, _, hok, ho, -⟩ := getLeafAt_ok (healed_reliable bs) (represents_healed h) hn i
  rw [getLeafAt_some cc self hrun, Prod.mk.injEq, Except.ok.injEq] at hok
  rw [← ho, hok.1]

/-- Whatever calls of the store fail, the getters of a represented state never answer wrong:
`get_root` returns the commitment to its values, `get_peaks` the reference peaks, and
`get_leaf_at` a value only where the values hold it; and none of them writes. -/
theorem getters_sound (h : Represents cc self vs ts bs) (hn : vs.length < 2 ^ 64) :
    (∀ c bs', (self.getRoot cc).run bs = (.ok c, bs') → c = commitment cc vs) ∧
    (∀ ps bs', (self.getPeaks cc).run bs = (.ok ps, bs') →
      ps = mountainRoots cc (setBits vs.length) (vs.map (leafCid cc))) ∧
    (∀ i v bs', (self.getLeafAt cc i).run bs = (.ok (some v), bs') → vs[i]? = some v) ∧
    bs.Same ((self.getRoot cc).run bs).2 ∧ bs.Same ((self.getPeaks cc).run bs).2 ∧
    ∀ i, bs.Same ((self.getLeafAt cc i).run bs).2 :=
  ⟨fun _ _ => getRoot_any h, fun _ _ => getPeaks_any h, fun _ _ _ => getLeafAt_any h hn,
    (getRoot_readOnly cc self).reads bs, (getPeaks_readOnly cc self).reads bs,
    fun i => getLeafAt_reads cc self i bs⟩

theorem getters_sound_three : ∃ (st : State Data Unit) (ts : List (Mmr.Tree Data))
    (bs : Blockstore Data Data), (Represents dagCbor st [.int 1, .int 2, .int 3] ts (failingAt bs (bs.clock + 2)) ∧
      [Data.int 1, .int 2, .int 3].length < 2 ^ 64) ∧
    (∀ c bs', (st.getRoot dagCbor).run (failingAt bs (bs.clock + 2)) = (.ok c, bs') →
      c = commitment dagCbor [.int 1, .int 2, .int 3]) ∧
    (∀ ps bs', (st.getPeaks dagCbor).run (failingAt bs (bs.clock + 2)) = (.ok ps, bs') →
      ps = mountainRoots dagCbor (setBits [Data.int 1, .int 2, .int 3].length)
        ([Data.int 1, .int 2, .int 3].map (leafCid dagCbor))) ∧
    (∀ i v bs', (st.getLeafAt dagCbor i).run (failingAt bs (bs.clock + 2)) = (.ok (some v), bs') →
      [Data.int 1, .int 2, .int 3][i]? = some v) ∧
    (failingAt bs (bs.clock + 2)).Same ((st.getRoot dagCbor).run (failingAt bs (bs.clock + 2))).2 ∧
    (failingAt bs (bs.clock + 2)).Same ((st.getPeaks dagCbor).run (failingAt bs (bs.clock + 2))).2 ∧
    ∀ i, (failingAt bs (bs.clock + 2)).Same ((st.getLeafAt dagCbor i).run (failingAt bs (bs.clock + 2))).2 := by
  obtain ⟨st, ts, bs, -, h⟩ := exists_represents dagCbor _ Blockstore.empty_reliable [.int 1, .int 2, .int 3]
    (by decide)
  have hf : Represents dagCbor st _ ts (failingAt bs (bs.clock + 2)) := represents_of_blocks_eq h rfl
  exact ⟨st, ts, bs, ⟨hf, by decide⟩, getters_sound hf (by decide)⟩

theorem mem_of_getD_eq_some {α : Type} {l : List (Option α)} {k : Nat} {a : α}
    (h : l.getD k none = some a) : some a ∈ l := by
  rw [List.getD_eq_getElem?_getD] at h
  cases hk : l[k]? <;> simp only [hk, Option.getD_some, Option.getD_none] at h
  · cases h
  · exact List.getElem?_mem (hk.trans (congrArg some h))

section Fault

variable (hf : bs.fault bs.clock = true)
include hf

/-- On a store whose next call fails, `Node::get` of a node as `expand` built it either returns
at once, without a call, or fails with that call's error: its only call loads a child. -/
theorem Node.get_fault {blocks : Cid → Option Block} :
    ∀ {h : Nat} {n : Node Cid} {f : Nat → Option Cid}, Node.Holds cc blocks h n f → n.Fresh → ∀ i,
      (∃ r, (n.get cc h i).run bs = (.ok r, bs)) ∨
        (n.get cc h i).run bs = (.error (.err .store), { bs with clock := bs.clock + 1 })
  | 0, _, _, ⟨_, rfl, _⟩, _, _ => .inl ⟨_, rfl⟩
  | _ + 1, _, _, ⟨links, rfl, _⟩, hfr, _ => by
      simp only [Node.get]
      split
      · exact .inl ⟨_, rfl⟩
      · rename_i l hl
        obtain ⟨c, rfl⟩ := hfr _ (mem_of_getD_eq_some hl) l rfl
        exact .inr (by simp [Link.node, loadNode, getCbor, getBlock, tick, hf, Io.run_bind])

theorem Amt.get_fault {blocks : Cid → Option Block} {ps : List Cid} {a : Amt Cid}
    (ha : a.Holds cc blocks ps) (hfr : a.root.Fresh) (i : Nat) :
    (∃ r, (a.get cc i).run bs = (.ok r, bs)) ∨ ∃ e bs', (a.get cc i).run bs = (.error (.err e), bs') := by
  by_cases hi : Amt.maxIndex < i
  · exact .inr ⟨.outOfRange i, bs, by simp [Amt.get, hi, Io.run_bind]⟩
  simp only [Amt.get, if_neg hi, Io.pure_bind]
  split
  · exact .inl ⟨_, rfl⟩
  · rcases Node.get_fault hf ha.root hfr i with ⟨r, hr⟩ | hr
    · exact .inl ⟨_, by rw [Io.run_bind, hr]; rfl⟩
    · exact .inr ⟨_, _, by rw [Io.run_bind, hr]⟩

theorem getInPeak_fault (path : Nat) (cid : Cid) : (getInPeak cc path cid : Io Cid Block S).run bs =
    (.error (.err .store), { bs with clock := bs.clock + 1 }) := by
  by_cases hp : path = 1 <;> simp [getInPeak, hp, getCbor, getBlock, tick, hf, Io.run_bind]

/-- `get_at` on a store whose next call fails, with the peaks as `Amt::load` leaves them, ends
in an error, never a panic, at every index. -/
theorem getAt_err_of_fault {n : Nat} (hn : n < 2 ^ 64) (i : Nat) {blocks : Cid → Option Block}
    {ps : List Cid} {a : Amt Cid} (ha : a.Holds cc blocks ps) (hfr : a.root.Fresh) :
    ∃ e bs', (getAt cc i n a : Io Cid Block S).run bs = (.error (.err e), bs') := by
  by_cases hi : i < n
  · obtain ⟨e, h, -, -, -, hrun⟩ := @pathForEigenRoot_of_lt Cid _ _ hn hi
    rcases Amt.get_fault hf ha hfr e with ⟨⟨_ | cid, _⟩, hget⟩ | ⟨e', bs', hget⟩
    · exact ⟨.peakNotFound e, bs, by simp [getAt, Io.run_bind, hrun, hget]⟩
    · exact ⟨.store, { bs with clock := bs.clock + 1 }, by
        simp [getAt, Io.run_bind, hrun, hget, getInPeak_fault hf]⟩
    · exact ⟨e', bs', by simp [getAt, Io.run_bind, hrun, hget]⟩
  · exact ⟨_, _, getAt_of_le (Nat.le_of_not_lt hi) a⟩

end Fault

/-- One failed read is enough to hide every leaf: on a store whose call after the load of the
peaks fails, `get_leaf_at` answers `Ok(None)` at every index, below the count as well, as it
does past it. -/
theorem getLeafAt_fault (h : Represents cc self vs ts bs) (hc : bs.fault bs.clock = false)
    (hf : bs.fault (bs.clock + 1) = true) (hn : vs.length < 2 ^ 64) (i : Nat) :
    ((self.getLeafAt cc i).run bs).1 = .ok none := by
  obtain ⟨b, -, hb, a, hd, ha⟩ := h.flushed
  have hload : (Amt.load cc self.peaks).run bs = (.ok a, { bs with clock := bs.clock + 1 }) := by
    simp only [Amt.load, getCbor, getBlock, tick, Io.run_bind, hc, Bool.false_eq_true, if_false, hb, hd]
    rw [if_neg (Nat.not_lt.2 ha.height_le)]
    rfl
  have hf' : ({ bs with clock := bs.clock + 1 } : Blockstore Cid Block).fault
      ({ bs with clock := bs.clock + 1 } : Blockstore Cid Block).clock = true := hf
  obtain ⟨e, bs2, h2⟩ := getAt_err_of_fault hf'
    (h.leafCount_eq ▸ hn) i ha (Amt.decode_fresh hd)
  rw [State.getLeafAt, Io.run_bind, hload]
  show ((tryCatch _ _ : Io Cid Block (Option S)).run _).1 = _
  rw [Io.run_tryCatch, Io.run_map, h2]
  rfl

theorem getLeafAt_fault_three : ∃ (st : State Data Unit) (ts : List (Mmr.Tree Data))
    (bs : Blockstore Data Data), (Represents dagCbor st [.int 1, .int 2, .int 3] ts (failingAt bs (bs.clock + 1)) ∧
      (failingAt bs (bs.clock + 1)).fault (failingAt bs (bs.clock + 1)).clock = false ∧
      (failingAt bs (bs.clock + 1)).fault ((failingAt bs (bs.clock + 1)).clock + 1) = true ∧
      [Data.int 1, .int 2, .int 3].length < 2 ^ 64) ∧
    ∀ i, ((st.getLeafAt dagCbor i).run (failingAt bs (bs.clock + 1))).1 = .ok none := by
  obtain ⟨st, ts, bs, -, h⟩ := exists_represents dagCbor _ Blockstore.empty_reliable [.int 1, .int 2, .int 3]
    (by decide)
  have hf : Represents dagCbor st _ ts (failingAt bs (bs.clock + 1)) := represents_of_blocks_eq h rfl
  have hc : (failingAt bs (bs.clock + 1)).fault (failingAt bs (bs.clock + 1)).clock = false := by
    simp [failingAt]
  have hf1 : (failingAt bs (bs.clock + 1)).fault ((failingAt bs (bs.clock + 1)).clock + 1) = true := by
    simp [failingAt]
  exact ⟨st, ts, bs, ⟨hf, hc, hf1, by decide⟩, getLeafAt_fault hf hc hf1 (by decide)⟩

/-- One push of `v` onto the values `vs`, as its caller sees it: the values the state holds
after it, and what it returned. It appends `v` and returns the commitment with the index of
`v`, or fails having appended `v` or not. -/
inductive PushStep (cc : Codec Cid Block S) (vs : List S) (v : S) :
    List S → Except (Abort Cid) (PushReturn Cid) → Prop
  | ok : PushStep cc vs v (vs ++ [v]) (.ok ⟨commitment cc (vs ++ [v]), vs.length⟩)
  | dropped (e : Abort Cid) : PushStep cc vs v vs (.error e)
  | committed (e : Abort Cid) : PushStep cc vs v (vs ++ [v]) (.error e)

namespace PushStep

variable {vs ws : List S} {v : S} {r : Except (Abort Cid) (PushReturn Cid)}

theorem exists_append (h : PushStep cc vs v ws r) : ∃ ys, ws = vs ++ ys ∧ ys.Sublist [v] := by
  cases h with
  | ok => exact ⟨[v], rfl, .refl _⟩
  | dropped => exact ⟨[], by simp, List.nil_sublist _⟩
  | committed => exact ⟨[v], rfl, .refl _⟩

theorem length_le (h : PushStep cc vs v ws r) : ws.length ≤ vs.length + 1 := by
  obtain ⟨ys, rfl, hys⟩ := h.exists_append
  simpa using hys.length_le

end PushStep

/-- A run of pushes of `ws` onto the values `vs`, each one a `PushStep`: what the pushes
returned, and the values held at the end. -/
inductive PushRun (cc : Codec Cid Block S) :
    List S → List S → List (Except (Abort Cid) (PushReturn Cid)) → List S → Prop
  | nil (vs : List S) : PushRun cc vs [] [] vs
  | cons {vs mid us : List S} {v : S} {ws : List S} {r : Except (Abort Cid) (PushReturn Cid)}
      {rs : List (Except (Abort Cid) (PushReturn Cid))} :
      PushStep cc vs v mid r → PushRun cc mid ws rs us → PushRun cc vs (v :: ws) (r :: rs) us

namespace PushRun

variable {vs ws us : List S} {rs : List (Except (Abort Cid) (PushReturn Cid))}

/-- The values at the end of a run extend those at its start by some of the values pushed, in
order; one result per push. -/
theorem exists_append (h : PushRun cc vs ws rs us) :
    ∃ ys, us = vs ++ ys ∧ ys.Sublist ws ∧ rs.length = ws.length := by
  induction h with
  | nil => exact ⟨[], by simp, .slnil, rfl⟩
  | cons step _ ih =>
      obtain ⟨ys, rfl, hys⟩ := step.exists_append
      obtain ⟨zs, rfl, hzs, hlen⟩ := ih
      exact ⟨ys ++ zs, by simp, hys.append hzs, by simp [hlen]⟩

/-- Whatever failed after it, a push that returned `Ok` stays: the index it returned holds the
value it pushed at the end of the run, and the root it returned is the commitment to the values
up to that index. -/
theorem ok_mem (h : PushRun cc vs ws rs us) :
    ∀ {j : Nat} {x : PushReturn Cid}, rs[j]? = some (.ok x) →
      vs.length ≤ x.index ∧ us[x.index]? = ws[j]? ∧ x.root = commitment cc (us.take (x.index + 1)) := by
  induction h with
  | nil => simp
  | cons step run ih =>
      intro j x hx
      obtain ⟨zs, rfl, -, -⟩ := run.exists_append
      cases j with
      | zero =>
          rw [List.getElem?_cons_zero, Option.some.injEq] at hx
          cases step <;> cases hx
          refine ⟨le_refl _, ?_, by rw [List.take_left' (by simp)]⟩
          rw [List.append_assoc, List.getElem?_append_right (le_refl _), Nat.sub_self]
          simp
      | succ j =>
          rw [List.getElem?_cons_succ] at hx
          obtain ⟨hle, hget, hroot⟩ := ih hx
          obtain ⟨ys, rfl, -⟩ := step.exists_append
          exact ⟨by simp at hle; omega, by rw [List.getElem?_cons_succ]; exact hget, hroot⟩

end PushRun

variable [DecidableEq Cid]

/-- `State::push` from a represented state, whatever calls of the store fail, is a `PushStep`
of the values it represents, and loses no block. -/
theorem push_step (h : Represents cc self vs ts bs) (hn : vs.length + 1 < 2 ^ 64) (v : S)
    {r : Except (Abort Cid) (PushReturn Cid)} {st : State Cid Address}
    (hrun : self.push cc v bs = (r, st, bs')) :
    ∃ ws ts', PushStep cc vs v ws r ∧ Represents cc st ws ts' bs' ∧ st.owner = self.owner ∧
      st.writeAccess = self.writeAccess ∧ bs.Le cc bs' := by
  have hs1 := (Amt.load_readOnly cc self.peaks).reads bs
  rw [State.push] at hrun
  rcases h1 : (Amt.load cc self.peaks).run bs with ⟨_ | amt, bs1⟩ <;> rw [h1] at hrun hs1
  case error e =>
    cases hrun
    exact ⟨vs, ts, .dropped e, h.mono hs1.le, rfl, rfl, hs1.le⟩
  case ok =>
    have ha := ((Amt.load_readOnly cc _).transparent.post h1
      ((represents_healed h).load_ok (healed_reliable bs))).1
    have hh1 := represents_healed (h.mono hs1.le)
    have hs2 := (push_safe cc self.leafCount amt v).keeps bs1
    rcases h2 : (Shared.push cc self.leafCount amt v).run bs1 with
      ⟨_ | res, bs2⟩ <;> dsimp only at hrun <;> rw [h2] at hrun hs2
    case error e =>
      cases hrun
      exact ⟨vs, ts, .dropped e, h.mono (hs1.le.trans hs2), rfl, rfl, hs1.le.trans hs2⟩
    case ok =>
      obtain ⟨c, amt2⟩ := res
      rw [h.leafCount_eq] at h2 hrun
      obtain ⟨ts', hp', hst', ha2, hfl', -⟩ := (push_safe cc _ _ v).transparent.post h2
        (push_ok (healed_reliable bs1) hh1.peaks hh1.stored hn (by rw [healed_blocks, hs1.blocks_eq]; exact ha) v)
      have hrep : Represents cc { self with peaks := c, leafCount := vs.length + 1 } (vs ++ [v]) ts' bs2 :=
        represents_of_healed ⟨by simp, hp', hst', hfl'⟩
      have hs3 := (bagPeaks_readOnly cc amt2).reads bs2
      rcases h3 : (bagPeaks cc amt2).run bs2 with ⟨_ | root, bs3⟩ <;>
        simp only [checkedAdd_of_lt hn, h3] at hrun <;> rw [h3] at hs3
      case error e =>
        cases hrun
        exact ⟨_, ts', .committed e, hrep.mono hs3.le, rfl, rfl, hs1.le.trans (hs2.trans hs3.le)⟩
      case ok =>
        have hroot : root = bag cc (ts'.map (cid cc)) := ((bagPeaks_readOnly cc _).transparent.post h3
          (bagPeaks_ok (healed_reliable bs2) ha2)).1
        cases hrun
        rw [hroot, Nat.add_sub_cancel, ← hp'.commitment_eq cc]
        exact ⟨_, ts', .ok, hrep.mono hs3.le, rfl, rfl, hs1.le.trans (hs2.trans hs3.le)⟩

/-- `State::push` from a represented state, whatever calls of the store fail: the state it
leaves represents either the values before it or the values with `v` appended, it returns
`Ok` only in the second case, with the commitment to them, and no block is lost; its getters
answer for those values. -/
theorem push_any (h : Represents cc self vs ts bs) (hn : vs.length + 1 < 2 ^ 64) (v : S)
    {r : Except (Abort Cid) (PushReturn Cid)} {st : State Cid Address}
    (hrun : self.push cc v bs = (r, st, bs')) :
    ∃ ws ts', PushStep cc vs v ws r ∧ Represents cc st ws ts' bs' ∧ st.owner = self.owner ∧
      st.writeAccess = self.writeAccess ∧ bs.Le cc bs' ∧
      (∀ c bs'', (st.getRoot cc).run bs' = (.ok c, bs'') → c = commitment cc ws) ∧
      ∀ i x bs'', (st.getLeafAt cc i).run bs' = (.ok (some x), bs'') → ws[i]? = some x := by
  obtain ⟨ws, ts', step, hrep, ho, hw, hle⟩ := push_step h hn v hrun
  have hlen : ws.length < 2 ^ 64 := by have := step.length_le; omega
  exact ⟨ws, ts', step, hrep, ho, hw, hle, fun _ _ => getRoot_any hrep,
    fun _ _ _ => getLeafAt_any hrep hlen⟩

/-- A push of a second value, whose merge stores a pair block, on a store failing that store:
the third call, after the load of the peaks and the store of the leaf. -/
theorem push_any_faulty : ∃ (st0 : State Data Unit) (ts : List (Mmr.Tree Data)) (bs : Blockstore Data Data),
    (Represents dagCbor st0 [.int 1] ts (failingAt bs (bs.clock + 2)) ∧ [Data.int 1].length + 1 < 2 ^ 64) ∧
    ∃ r st bs', st0.push dagCbor (.int 2) (failingAt bs (bs.clock + 2)) = (r, st, bs') ∧
      ∃ ws ts', PushStep dagCbor [.int 1] (.int 2) ws r ∧ Represents dagCbor st ws ts' bs' ∧
        st.owner = st0.owner ∧ st.writeAccess = st0.writeAccess ∧
        (failingAt bs (bs.clock + 2)).Le dagCbor bs' ∧
        (∀ c bs'', (st.getRoot dagCbor).run bs' = (.ok c, bs'') → c = commitment dagCbor ws) ∧
        ∀ i x bs'', (st.getLeafAt dagCbor i).run bs' = (.ok (some x), bs'') → ws[i]? = some x := by
  obtain ⟨st0, ts, bs, -, h⟩ := exists_represents dagCbor _ Blockstore.empty_reliable [.int 1] (by decide)
  have hf : Represents dagCbor st0 _ ts (failingAt bs (bs.clock + 2)) := represents_of_blocks_eq h rfl
  exact ⟨st0, ts, bs, ⟨hf, by decide⟩, _, _, _, rfl, push_any hf (by decide) _ rfl⟩

/-- Push `ws` one at a time, each call on the state and the store the one before left, whatever
it returned: the calls of a client that keeps the `&mut self` state of a failed push. -/
def pushEach (cc : Codec Cid Block S) : State Cid Address → List S → Blockstore Cid Block →
    List (Except (Abort Cid) (PushReturn Cid)) × State Cid Address × Blockstore Cid Block
  | self, [], bs => ([], self, bs)
  | self, v :: ws, bs =>
      match self.push cc v bs with
      | (r, self, bs) =>
          match pushEach cc self ws bs with
          | (rs, self, bs) => (r :: rs, self, bs)

/-- Every run of pushes, whatever calls of the store fail, is a `PushRun` of the values the
state represents, and loses no block. -/
theorem pushEach_run : ∀ (ws : List S) (self : State Cid Address) (vs : List S)
    (ts : List (Mmr.Tree S)) (bs : Blockstore Cid Block), Represents cc self vs ts bs →
    vs.length + ws.length < 2 ^ 64 → ∀ {rs st bs'}, pushEach cc self ws bs = (rs, st, bs') →
    ∃ us ts', PushRun cc vs ws rs us ∧ Represents cc st us ts' bs' ∧ st.owner = self.owner ∧
      st.writeAccess = self.writeAccess ∧ bs.Le cc bs'
  | [], self, vs, ts, bs, h, _, _, _, _, hrun => by
      cases hrun
      exact ⟨vs, ts, .nil vs, h, rfl, rfl, .refl bs⟩
  | w :: ws, self, vs, ts, bs, h, hn, rs, st, bs', hrun => by
      rcases h1 : self.push cc w bs with ⟨r, st1, bs1⟩
      obtain ⟨mid, ts1, step, h1', ho1, hw1, hle1⟩ := push_step h (by simp at hn; omega) w h1
      rcases h2 : pushEach cc st1 ws bs1 with ⟨rs', st2, bs2⟩
      rw [pushEach, h1] at hrun
      dsimp only at hrun
      rw [h2] at hrun
      cases hrun
      obtain ⟨us, ts2, run, h2', ho2, hw2, hle2⟩ :=
        pushEach_run ws st1 mid ts1 bs1 h1' (by have := step.length_le; simp at hn; omega) h2
      exact ⟨us, ts2, .cons step run, h2', ho2.trans ho1, hw2.trans hw1, hle1.trans hle2⟩

/-- Every run of pushes, whatever calls of the store fail, refines the abstract run of
`PushRun`. What a client can rely on follows: the state at the end represents the values it
started with followed by some of the values pushed, in order; and every push that returned `Ok`
stays, its index holding its value and its root the commitment to the values up to it. -/
theorem pushEach_refines {ws : List S} (h : Represents cc self vs ts bs)
    (hn : vs.length + ws.length < 2 ^ 64) {rs : List (Except (Abort Cid) (PushReturn Cid))}
    {st : State Cid Address} (hrun : pushEach cc self ws bs = (rs, st, bs')) :
    ∃ us ts', PushRun cc vs ws rs us ∧ Represents cc st us ts' bs' ∧ st.owner = self.owner ∧
      st.writeAccess = self.writeAccess ∧ bs.Le cc bs' ∧ (∃ ys, us = vs ++ ys ∧ ys.Sublist ws) ∧
      rs.length = ws.length ∧ ∀ (j : Nat) (x : PushReturn Cid), rs[j]? = some (.ok x) →
        us[x.index]? = ws[j]? ∧ x.root = commitment cc (us.take (x.index + 1)) := by
  obtain ⟨us, ts', run, hrep, ho, hw, hle⟩ := pushEach_run ws self vs ts bs h hn hrun
  obtain ⟨ys, hys, hsub, hlen⟩ := run.exists_append
  exact ⟨us, ts', run, hrep, ho, hw, hle, ⟨ys, hys, hsub⟩, hlen, fun _ _ hx => (run.ok_mem hx).2⟩

theorem pushEach_refines_faulty : ∃ (st0 : State Data Unit) (ts : List (Mmr.Tree Data))
    (bs : Blockstore Data Data), (Represents dagCbor st0 [.int 1] ts (failingAt bs (bs.clock + 2)) ∧
      [Data.int 1].length + [Data.int 2, .int 3].length < 2 ^ 64) ∧
    ∃ rs st bs', pushEach dagCbor st0 [Data.int 2, .int 3] (failingAt bs (bs.clock + 2)) = (rs, st, bs') ∧
      ∃ us ts', PushRun dagCbor [.int 1] [Data.int 2, .int 3] rs us ∧ Represents dagCbor st us ts' bs' ∧
        st.owner = st0.owner ∧ st.writeAccess = st0.writeAccess ∧
        (failingAt bs (bs.clock + 2)).Le dagCbor bs' ∧
        (∃ ys, us = [.int 1] ++ ys ∧ ys.Sublist [Data.int 2, .int 3]) ∧
        rs.length = [Data.int 2, .int 3].length ∧ ∀ (j : Nat) (x : PushReturn Data), rs[j]? = some (.ok x) →
          us[x.index]? = [Data.int 2, .int 3][j]? ∧ x.root = commitment dagCbor (us.take (x.index + 1)) := by
  obtain ⟨st0, ts, bs, -, h⟩ := exists_represents dagCbor _ Blockstore.empty_reliable [.int 1] (by decide)
  have hf : Represents dagCbor st0 _ ts (failingAt bs (bs.clock + 2)) := represents_of_blocks_eq h rfl
  exact ⟨st0, ts, bs, ⟨hf, by decide⟩, _, _, _, rfl, pushEach_refines hf (by decide) rfl⟩

end Fendermint.Robust
