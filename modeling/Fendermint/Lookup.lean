import Fendermint.EigenPath
import Fendermint.Invariant

namespace Fendermint.Lookup

open Ipld Bits Shared Mmr Mmr.Tree SharedSpec Invariant EigenPath

variable {Cid Block S : Type} {cc : Codec Cid Block S} {bs : Blockstore Cid Block}

/-- In a perfect tree of height `k + 1`, bit `k` of an offset picks the subtree that holds the
leaf, and the bits below it the offset there. -/
theorem getElem?_leaves_node {k o : Nat} {l r : Mmr.Tree S} (hl : l.Perfect k) (ho : o < 2 ^ (k + 1)) :
    (node l r).leaves[o]? = (if o.testBit k then r else l).leaves[o % 2 ^ k]? := by
  have hsplit := eq_mod_add_of_lt ho
  have hlen := length_leaves hl
  cases hb : o.testBit k
  · rw [hb, Bool.toNat_false, Nat.mul_zero, Nat.add_zero] at hsplit
    rw [leaves, List.getElem?_append_left (by omega), ← hsplit]
    rfl
  · rw [hb, Bool.toNat_true, Nat.mul_one] at hsplit
    rw [leaves, List.getElem?_append_right (by omega), if_pos rfl]
    congr 1
    omega

theorem perfect_zero {t : Mmr.Tree S} (ht : t.Perfect 0) : ∃ v, t = leaf v := by
  cases t with
  | leaf v => exact ⟨v, rfl⟩
  | node _ _ => exact ht.elim

theorem perfect_succ {k : Nat} {t : Mmr.Tree S} (ht : t.Perfect (k + 1)) :
    ∃ l r, t = node l r ∧ l.Perfect k ∧ r.Perfect k := by
  cases t with
  | leaf _ => exact ht.elim
  | node l r => exact ⟨l, r, rfl, ht⟩

theorem stored_node {l r : Mmr.Tree S} (h : (node l r).Stored cc bs) :
    bs.blocks ((node l r).cid cc) = some (cc.ofPair (l.cid cc) (r.cid cc)) := h.1

/-- The loop of `get_at`, one level per bit of the path below its top bit: from the pair block
of a node of height `k + 1`, and the offset `o` of a leaf in it that the path's low bits give,
it reaches the pair block of the lowest node above that leaf. -/
theorem descend_ok {path h : Nat} :
    ∀ (k i : Nat) (l r : Mmr.Tree S) (o : Nat) (bs : Blockstore Cid Block), bs.Reliable →
      i + k = h → l.Perfect k → r.Perfect k → l.Stored cc bs → r.Stored cc bs → o < 2 ^ (k + 1) →
      (∀ j ≤ k, path.testBit j = o.testBit j) →
      (descend cc path (h + 1) (List.range' i k) (l.cid cc, r.cid cc)).Ok bs fun p bs' =>
        ∃ v, (node l r).leaves[o]? = some v ∧
          (if path &&& 1 = 0 then p.1 else p.2) = (leaf v).cid cc ∧
          (leaf v).Stored cc bs' ∧ bs.Same bs'
  | 0, _, l, r, o, bs, _, _, hl, hr', hsl, hsr, ho, hbits => by
      obtain ⟨a, rfl⟩ := perfect_zero hl
      obtain ⟨b, rfl⟩ := perfect_zero hr'
      rw [getElem?_leaves_node hl ho, Nat.pow_zero, Nat.mod_one]
      have hbit : path &&& 1 = (o.testBit 0).toNat := by
        rw [← hbits 0 le_rfl, ← shiftRight_and_one, Nat.shiftRight_zero]
      rw [hbit]
      cases o.testBit 0
      · exact Io.Ok.pure ⟨a, rfl, rfl, hsl, .refl bs⟩
      · exact Io.Ok.pure ⟨b, rfl, rfl, hsr, .refl bs⟩
  | k + 1, i, l, r, o, bs, hrel, hik, hl, hr', hsl, hsr, ho, hbits => by
      simp only [List.range'_succ, descend]
      refine Io.Ok.bind (Io.Ok.lift (checkedSub_of_le (show i ≤ h + 1 by omega)) ?_)
      refine Io.Ok.bind (Io.Ok.lift (checkedSub_of_le (show 1 ≤ h + 1 - i by omega)) ?_)
      rw [show h + 1 - i - 1 = k + 1 by omega, shiftRight_and_one, hbits (k + 1) le_rfl,
        getElem?_leaves_node hl ho]
      have hchild : ∃ u, (if (o.testBit (k + 1)).toNat = 0 then l.cid cc else r.cid cc) = u.cid cc ∧
          u.Perfect (k + 1) ∧ u.Stored cc bs ∧ (if o.testBit (k + 1) then r else l) = u := by
        cases o.testBit (k + 1)
        · exact ⟨l, rfl, hl, hsl, rfl⟩
        · exact ⟨r, rfl, hr', hsr, rfl⟩
      obtain ⟨u, hc, hu, hs, hsel⟩ := hchild
      obtain ⟨ul, ur, rfl, hul, hur⟩ := perfect_succ hu
      rw [hc, hsel]
      refine Io.Ok.bind ((getCbor_ok hrel (stored_node hs) (cc.toPair_ofPair _ _)).mono ?_)
      rintro _ bs1 ⟨rfl, h1⟩
      refine (descend_ok k (i + 1) ul ur (o % 2 ^ (k + 1)) bs1 (hrel.of_same h1) (by omega) hul hur
        (hs.2.1.mono h1.le) (hs.2.2.mono h1.le) (Nat.mod_lt _ (Nat.two_pow_pos _)) fun j hj => ?_).mono
        fun p bs' ⟨w, hw, hp, hst, hs'⟩ => ⟨w, hw, hp, hst, h1.trans hs'⟩
      rw [hbits j (by omega), Nat.testBit_mod_two_pow]
      simp [show j < k + 1 by omega]

/-- The walk of `get_at` in a stored perfect tree of height `h ≤ 63`: the path `2 ^ h + o`
reaches the leaf at offset `o`, and the loop bound does not underflow; for `h = 0` the path is
`1` and the peak is read as the leaf itself. -/
theorem getInPeak_ok (hr : bs.Reliable) {h o : Nat} {t : Mmr.Tree S} (hp : t.Perfect h)
    (hh : h ≤ 63) (hs : t.Stored cc bs) (ho : o < 2 ^ h) :
    (getInPeak cc (2 ^ h + o) (t.cid cc)).Ok bs fun v bs' => t.leaves[o]? = some v ∧ bs.Same bs' := by
  cases h with
  | zero =>
      obtain ⟨v, rfl⟩ := perfect_zero hp
      obtain rfl : o = 0 := by simpa using ho
      simp only [getInPeak, Nat.pow_zero, Nat.add_zero, if_true]
      refine Io.Ok.bind ((getCbor_ok hr hs (cc.toValue_ofValue v)).mono ?_)
      rintro _ bs1 ⟨rfl, h1⟩
      exact Io.Ok.pure ⟨rfl, h1⟩
  | succ k =>
      obtain ⟨l, r, rfl, hl, hr'⟩ := perfect_succ hp
      have hpow := Nat.one_le_two_pow (n := k)
      rw [Nat.pow_succ] at ho ⊢
      simp only [getInPeak, show 2 ^ k * 2 + o ≠ 1 by omega, if_false]
      refine Io.Ok.bind (Io.Ok.pure (Io.Ok.bind ((getCbor_ok hr (stored_node hs) (cc.toPair_ofPair _ _)).mono ?_)))
      rintro _ bs1 ⟨rfl, h1⟩
      have hlz : leadingZeros (2 ^ k * 2 + o) = 63 - (k + 1) := by
        rw [← Nat.pow_succ] at ho ⊢
        refine leadingZeros_of_top (by omega) ?_ (by rw [Nat.pow_succ]; omega)
        rw [Nat.testBit_two_pow_add_eq, Nat.testBit_lt_two_pow ho]
        rfl
      rw [hlz]
      refine Io.Ok.bind (Io.Ok.lift (checkedSub_of_le (by omega)) ?_)
      rw [show 64 - (63 - (k + 1)) = k + 1 + 1 by omega]
      refine Io.Ok.bind (Io.Ok.lift (checkedSub_of_le (by omega)) ?_)
      rw [show k + 1 + 1 - 1 - 1 = k by omega]
      refine Io.Ok.bind ((descend_ok k 1 l r o bs1 (hr.of_same h1) (by omega) hl hr'
        (hs.2.1.mono h1.le) (hs.2.2.mono h1.le) (by rw [Nat.pow_succ]; omega) fun j hj => ?_).mono ?_)
      · rw [← Nat.pow_succ, Nat.testBit_two_pow_add_gt (by omega)]
      · rintro p bs2 ⟨v, hv, hpv, hst, h2⟩
        rw [hpv]
        refine Io.Ok.bind ((getCbor_ok ((hr.of_same h1).of_same h2) hst (cc.toValue_ofValue v)).mono ?_)
        rintro _ bs3 ⟨rfl, h3⟩
        exact Io.Ok.pure ⟨hv, h1.trans (h2.trans h3)⟩

theorem getInPeak_ok_four :
    Blockstore.full.Reliable ∧
      (node (node (leaf (Data.int 1)) (leaf (.int 2))) (node (leaf (.int 3)) (leaf (.int 4)))).Perfect 2 ∧
      2 ≤ 63 ∧
      (node (node (leaf (Data.int 1)) (leaf (.int 2))) (node (leaf (.int 3)) (leaf (.int 4)))).Stored
        dagCbor Blockstore.full ∧ 2 < 2 ^ 2 ∧
      (getInPeak dagCbor (2 ^ 2 + 2) ((node (node (leaf (Data.int 1)) (leaf (.int 2)))
        (node (leaf (.int 3)) (leaf (.int 4)))).cid dagCbor)).Ok Blockstore.full fun v bs' =>
          (node (node (leaf (Data.int 1)) (leaf (.int 2))) (node (leaf (.int 3)) (leaf (.int 4)))).leaves[2]? =
            some v ∧ Blockstore.full.Same bs' :=
  ⟨Blockstore.full_reliable, ⟨⟨trivial, trivial⟩, trivial, trivial⟩, by decide,
    ⟨rfl, ⟨rfl, rfl, rfl⟩, rfl, rfl, rfl⟩, by decide,
    getInPeak_ok Blockstore.full_reliable ⟨⟨trivial, trivial⟩, trivial, trivial⟩ (by decide)
      ⟨rfl, ⟨rfl, rfl, rfl⟩, rfl, rfl, rfl⟩ (by decide)⟩

variable {vs : List S} {ts : List (Mmr.Tree S)}

/-- `get_at` on the peaks of `vs`, below the count: the value at the index. -/
theorem getAt_ok (hr : bs.Reliable) (hp : Peaks vs ts) (hs : ∀ t ∈ ts, t.Stored cc bs)
    (hn : vs.length < 2 ^ 64) {a : Amt Cid} (ha : a.Holds cc bs.blocks (ts.map (cid cc))) {i : Nat}
    (hi : i < vs.length) :
    (getAt cc i vs.length a).Ok bs fun v bs' => vs[i]? = some v ∧ bs.Same bs' := by
  obtain ⟨e, h, he, h1, h2, hrun⟩ := @pathForEigenRoot_of_lt Cid _ _ hn hi
  obtain ⟨t, hte, htp⟩ := exists_of_forall₂ hp.perfect he
  have hh : h < 64 := (mem_bitsBelow.1 (List.getElem?_mem he)).1
  have hel : e < (ts.map (cid cc)).length := by
    rw [List.length_map, ← hp.perfect.length_eq]
    exact (List.getElem?_eq_some_iff.1 he).1
  refine Io.Ok.bind (Io.Ok.lift hrun ?_)
  refine Io.Ok.bind ((Amt.get_ok hr ha (ha.index_le hel)).mono ?_)
  rintro ⟨_, _⟩ bs1 ⟨rfl, -, hs1⟩
  rw [List.getElem?_map, hte, Option.map_some']
  refine (getInPeak_ok (hr.of_same hs1) htp (by omega) ((hs t (List.getElem?_mem hte)).mono hs1.le)
    (by omega)).mono fun v bs' hv => ⟨?_, hs1.trans hv.2⟩
  rw [← hp.leaves_eq, ← hv.1, ← getElem?_flatMap_leaves hp.perfect he hte (by omega)]
  congr 1
  omega

theorem getAt_of_le {n i : Nat} (h : n ≤ i) (peaks : Amt Cid) :
    (getAt cc i n peaks : Io Cid Block S).run bs = (.error (.err .leafIndexOutOfRange), bs) := by
  rw [getAt, Io.run_bind, Io.run_lift, pathForEigenRoot_of_le h]

/-- `get_leaf_at` on a represented state: the value at the index, and `None` past the count. -/
theorem getLeafAt_ok {Address : Type} {st : State Cid Address} (hr : bs.Reliable)
    (h : Represents cc st vs ts bs) (hn : vs.length < 2 ^ 64) (i : Nat) :
    (st.getLeafAt cc i).Ok bs fun o bs' => o = vs[i]? ∧ bs.Same bs' := by
  refine Io.Ok.bind ((h.load_ok hr).mono fun a bs1 ⟨ha, hs1⟩ => ?_)
  rw [h.leafCount_eq]
  by_cases hi : i < vs.length
  · exact Io.Ok.tryCatch (Io.Ok.map ((getAt_ok (hr.of_same hs1) h.peaks
      (fun t ht => (h.stored t ht).mono hs1.le) hn (by rw [hs1.blocks_eq]; exact ha) hi).mono
        fun v bs' hv => ⟨hv.1.symm, hs1.trans hv.2⟩))
  · refine Io.Ok.tryCatch_error (e := .err .leafIndexOutOfRange)
      (by rw [Io.run_map, getAt_of_le (Nat.le_of_not_lt hi)]) ?_
    exact Io.Ok.pure ⟨by simp [Nat.le_of_not_lt hi], hs1⟩

/-- Every snapshot stays readable: `get_at` with the peaks handle and the count left by the
pushes of `vs`, against the store left by the further pushes of `ws`, gives every value of `vs`
and an error past them; `get_leaf_at` on the state after all the pushes gives every value and
`None` past them. -/
theorem getAt_snapshot [DecidableEq Cid] {Address : Type} (owner : Address)
    (writeAccess : WriteAccess) (vs ws : List S) (hn : vs.length + ws.length < 2 ^ 64)
    (hr : bs.Reliable) :
    (State.new cc owner writeAccess).Ok bs fun st bs1 => ∃ roots st1 bs2,
      st.pushAll cc vs bs1 = (.ok roots, st1, bs2) ∧ ∃ roots' st2 bs3,
        st1.pushAll cc ws bs2 = (.ok roots', st2, bs3) ∧
        (∀ i < vs.length, (Amt.load cc st1.peaks >>= getAt cc i st1.leafCount).Ok bs3
          fun v _ => vs[i]? = some v) ∧
        (∀ i, vs.length ≤ i → ((Amt.load cc st1.peaks >>= getAt cc i st1.leafCount).run bs3).1 =
          .error (.err .leafIndexOutOfRange)) ∧
        ∀ i, (st2.getLeafAt cc i).Ok bs3 fun o _ => o = (vs ++ ws)[i]? :=
  (new_ok hr owner writeAccess).mono fun _ bs1 ⟨h0, _, _, hle0⟩ => by
    have hr1 := hr.of_le hle0
    obtain ⟨st1, ts1, bs2, hrun1, h1, -, -, hle1⟩ :=
      pushAll_represents vs _ [] [] bs1 hr1 h0 (by simp; omega)
    rw [List.nil_append] at h1
    obtain ⟨st2, ts2, bs3, hrun2, h2, -, -, hle2⟩ :=
      pushAll_represents ws st1 vs ts1 bs2 (hr1.of_le hle1) h1 hn
    have hr3 := (hr1.of_le hle1).of_le hle2
    have hsnap := h1.mono hle2
    refine ⟨_, st1, bs2, hrun1, _, st2, bs3, hrun2, fun i hi => ?_, fun i hi => ?_,
      fun i => (getLeafAt_ok hr3 h2 (by simpa using hn) i).mono fun _ _ ho => ho.1⟩
    · refine Io.Ok.bind ((hsnap.load_ok hr3).mono fun a bs4 ⟨ha, hs4⟩ => ?_)
      rw [hsnap.leafCount_eq]
      exact (getAt_ok (hr3.of_same hs4) h1.peaks (fun t ht => (hsnap.stored t ht).mono hs4.le)
        (by omega) (by rw [hs4.blocks_eq]; exact ha) hi).mono fun _ _ hv => hv.1
    · obtain ⟨_, bs4, hload, -, -⟩ := hsnap.load_ok hr3
      rw [Io.run_bind, hload, hsnap.leafCount_eq]
      exact congrArg Prod.fst (getAt_of_le hi _)

theorem getAt_snapshot_two :
    ([Data.int 1].length + [Data.int 2].length < 2 ^ 64 ∧ Blockstore.empty.Reliable) ∧
    (State.new dagCbor () .public).Ok Blockstore.empty fun st bs1 => ∃ roots st1 bs2,
      st.pushAll dagCbor [.int 1] bs1 = (.ok roots, st1, bs2) ∧ ∃ roots' st2 bs3,
        st1.pushAll dagCbor [.int 2] bs2 = (.ok roots', st2, bs3) ∧
        (∀ i < [Data.int 1].length, (Amt.load dagCbor st1.peaks >>= getAt dagCbor i st1.leafCount).Ok
          bs3 fun v _ => [Data.int 1][i]? = some v) ∧
        (∀ i, [Data.int 1].length ≤ i →
          ((Amt.load dagCbor st1.peaks >>= getAt dagCbor i st1.leafCount).run bs3).1 =
            .error (.err .leafIndexOutOfRange)) ∧
        ∀ i, (st2.getLeafAt dagCbor i).Ok bs3 fun o _ => o = ([Data.int 1] ++ [Data.int 2])[i]? :=
  ⟨⟨by decide, Blockstore.empty_reliable⟩,
    getAt_snapshot () .public [Data.int 1] [Data.int 2] (by decide) Blockstore.empty_reliable⟩

/-- From any state that represents `vs`, on a store that fails no call, `State::push` acts on the
abstract accumulator, a list of values with its commitment, as an append: it returns the
commitment to `vs ++ [v]` and the index of `v`, and afterwards `get_root` gives that commitment
and `get_leaf_at` reads `vs ++ [v]`. -/
theorem push_refines [DecidableEq Cid] {Address : Type} {self : State Cid Address} (hr : bs.Reliable)
    (h : Represents cc self vs ts bs) (hn : vs.length + 1 < 2 ^ 64) (v : S) :
    ∃ st bs', self.push cc v bs = (.ok ⟨commitment cc (vs ++ [v]), vs.length⟩, st, bs') ∧
      st.leafCount = vs.length + 1 ∧ st.owner = self.owner ∧ st.writeAccess = self.writeAccess ∧
      (st.getRoot cc).Ok bs' (fun c _ => c = commitment cc (vs ++ [v])) ∧
      ∀ i, (st.getLeafAt cc i).Ok bs' fun o _ => o = (vs ++ [v])[i]? := by
  obtain ⟨_, ts', bs', hpush, hrep, hle⟩ := push_represents hr h hn v
  have hr' := hr.of_le hle
  exact ⟨_, bs', hpush, rfl, rfl, rfl, (getRoot_ok hr' hrep).mono fun _ _ hc => hc.1,
    fun i => (getLeafAt_ok hr' hrep (by simpa using hn) i).mono fun _ _ ho => ho.1⟩

theorem push_refines_second : ∃ (st : State Data Unit) (ts : List (Mmr.Tree Data))
    (bs : Blockstore Data Data), (bs.Reliable ∧ Represents dagCbor st [.int 1] ts bs ∧
      [Data.int 1].length + 1 < 2 ^ 64) ∧
    ∃ st' bs', st.push dagCbor (.int 2) bs =
        (.ok ⟨commitment dagCbor ([.int 1] ++ [.int 2]), [Data.int 1].length⟩, st', bs') ∧
      st'.leafCount = [Data.int 1].length + 1 ∧ st'.owner = st.owner ∧ st'.writeAccess = st.writeAccess ∧
      (st'.getRoot dagCbor).Ok bs' (fun c _ => c = commitment dagCbor ([.int 1] ++ [.int 2])) ∧
      ∀ i, (st'.getLeafAt dagCbor i).Ok bs' fun o _ => o = ([.int 1] ++ [Data.int 2])[i]? := by
  obtain ⟨st, ts, bs, hr, h⟩ := exists_represents dagCbor _ Blockstore.empty_reliable [.int 1] (by decide)
  exact ⟨st, ts, bs, ⟨hr, h, by decide⟩, push_refines hr h (by decide) (.int 2)⟩

end Fendermint.Lookup
