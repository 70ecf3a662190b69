import Fendermint.Shared
import Fendermint.AmtSpec
import Fendermint.Mmr

namespace Fendermint.SharedSpec

open Ipld Bits Shared Mmr Mmr.Tree

variable {Cid Block S : Type} {cc : Codec Cid Block S} {bs : Blockstore Cid Block}

theorem hashPair_some (l r : Cid) : hashPair cc (some l) (some r) = .ok (pairCid cc l r) := rfl

private theorem exists_concat {α : Type} {k : Nat} {l : List α} (h : l.length = k + 1) :
    ∃ l' a, l = l' ++ [a] := by
  rcases List.eq_nil_or_concat l with rfl | ⟨l', a, rfl⟩
  · simp at h
  · exact ⟨l', a, List.concat_eq_append l' a⟩

/-- The loop of `bag_peaks` over the peaks `pre ++ suf`: each step folds the next peak down
into the bag of the peaks above it. -/
theorem bagLoop_ok : ∀ (k : Nat) (pre suf : List Cid) (a : Amt Cid) (bs : Blockstore Cid Block),
    bs.Reliable → a.Holds cc bs.blocks (pre ++ suf) → pre.length = k → suf ≠ [] →
    (bagLoop cc (pre.length + suf.length) (List.range' suf.length k) a (bag cc suf)).Ok bs
      fun c bs' => c = bag cc (pre ++ suf) ∧ bs.Same bs'
  | 0, pre, suf, _, bs, _, _, hk, _ => by
      rw [List.length_eq_zero.1 hk]
      exact Io.Ok.pure ⟨rfl, .refl bs⟩
  | k + 1, pre, suf, a, bs, hr, ha, hk, hsuf => by
      obtain ⟨pre, p, rfl⟩ := exists_concat hk
      simp only [List.range'_succ, bagLoop]
      refine Io.Ok.bind (Io.Ok.lift (checkedSub_of_le (by simp; omega)) ?_)
      refine Io.Ok.bind (Io.Ok.lift (checkedSub_of_le (by simp)) ?_)
      rw [show (pre ++ [p]).length + suf.length - 1 - suf.length = pre.length by simp]
      refine Io.Ok.bind ((Amt.get_ok hr ha (ha.index_le (by simp))).mono ?_)
      rintro ⟨_, a1⟩ bs1 ⟨rfl, ha1, h1⟩
      rw [List.append_assoc, List.getElem?_append_right (Nat.le_refl _), Nat.sub_self,
        List.singleton_append, List.getElem?_cons_zero]
      refine Io.Ok.bind (Io.Ok.lift (hashPair_some _ _) ?_)
      have h := bagLoop_ok k pre (p :: suf) a1 bs1 (hr.of_same h1)
        (by rw [h1.blocks_eq]; simpa using ha1) (by simpa using hk) (List.cons_ne_nil _ _)
      rw [bag_cons cc hsuf] at h
      rw [show (pre ++ [p]).length + suf.length = pre.length + (p :: suf).length by simp; omega]
      exact h.mono fun c bs' hc => ⟨by simpa using hc.1, h1.trans hc.2⟩

private theorem shapes {α : Type} (l : List α) :
    l = [] ∨ (∃ p, l = [p]) ∨ ∃ pre x y, l = pre ++ [x, y] := by
  rcases l with _ | ⟨p, _ | ⟨q, rest⟩⟩
  · exact .inl rfl
  · exact .inr (.inl ⟨p, rfl⟩)
  · obtain ⟨l', y, e⟩ := exists_concat (l := p :: q :: rest) rfl
    obtain ⟨pre, x, rfl⟩ := exists_concat (l := l') (k := rest.length) (by
      have := congrArg List.length e; simp at this; omega)
    exact .inr (.inr ⟨pre, x, y, by simpa using e⟩)

/-- `bag_peaks` on an AMT holding a stack of peaks is the reference bag. -/
theorem bagPeaks_ok (hr : bs.Reliable) {ps : List Cid} {a : Amt Cid} (ha : a.Holds cc bs.blocks ps) :
    (bagPeaks cc a).Ok bs fun c bs' => c = bag cc ps ∧ bs.Same bs' := by
  rcases shapes ps with rfl | ⟨p, rfl⟩ | ⟨pre, x, y, rfl⟩
  · simp only [bagPeaks, ha.count_eq, List.length_nil, if_true]
    exact Io.Ok.pure ⟨rfl, .refl bs⟩
  · simp only [bagPeaks, ha.count_eq, List.length_singleton, if_neg Nat.one_ne_zero, if_true,
      Io.pure_bind]
    refine Io.Ok.bind ((Amt.get_ok hr ha (ha.index_le (by simp))).mono ?_)
    rintro ⟨_, _⟩ bs1 ⟨rfl, -, h1⟩
    exact Io.Ok.pure ⟨rfl, h1⟩
  · have hc : a.count = pre.length + 2 := by simp [ha.count_eq]
    simp only [bagPeaks, hc, show pre.length + 2 ≠ 0 by omega, show pre.length + 2 ≠ 1 by omega,
      if_false, Nat.add_sub_cancel, show pre.length + 2 - 1 = pre.length + 1 by omega, Io.pure_bind]
    refine Io.Ok.bind ((Amt.get_ok hr ha (ha.index_le (by simp))).mono ?_)
    rintro ⟨_, a1⟩ bs1 ⟨rfl, ha1, h1⟩
    refine Io.Ok.bind ((Amt.get_ok (hr.of_same h1) (by rw [h1.blocks_eq]; exact ha1)
      (ha.index_le (by simp))).mono ?_)
    rintro ⟨_, a2⟩ bs2 ⟨rfl, ha2, h2⟩
    rw [List.getElem?_append_right (Nat.le_refl _), Nat.sub_self,
      List.getElem?_append_right (by omega), show pre.length + 1 - pre.length = 1 by omega]
    refine Io.Ok.bind (Io.Ok.lift (hashPair_some _ _) ?_)
    exact (bagLoop_ok pre.length pre [x, y] a2 bs2 ((hr.of_same h1).of_same h2)
      (by rw [h2.blocks_eq]; exact ha2) rfl (List.cons_ne_nil _ _)).mono
        fun c bs' hc => ⟨hc.1, h1.trans (h2.trans hc.2)⟩

variable [DecidableEq Cid]

theorem hashAndPutPair_ok (hr : bs.Reliable) (l r : Cid) :
    (hashAndPutPair cc (some l) (some r)).Ok bs fun c bs' =>
      c = pairCid cc l r ∧ bs'.Has cc (cc.ofPair l r) ∧ bs.Le cc bs' :=
  put_ok hr _

/-- The merge loop on the stack `pre ++ run ++ [r]`, with `k` peaks in `run` and the new
tree `r` on top: it folds `run` into `r` from its end, storing one pair block per merge. -/
theorem mergePeaks_ok : ∀ (k : Nat) (pre : List Cid) (run : List (Mmr.Tree S)) (r : Mmr.Tree S)
    (a : Amt Cid) (bs : Blockstore Cid Block), bs.Reliable →
    a.Holds cc bs.blocks (pre ++ run.map (cid cc) ++ [r.cid cc]) → run.length = k →
    (∀ t ∈ run, t.Stored cc bs) → r.Stored cc bs →
    (mergePeaks cc k a).Ok bs fun a' bs' =>
      a'.Holds cc bs'.blocks (pre ++ [(run.foldr node r).cid cc]) ∧ (run.foldr node r).Stored cc bs' ∧
        bs.Le cc bs'
  | 0, pre, run, r, a, bs, _, ha, hk, _, hs => by
      rw [List.length_eq_zero.1 hk] at ha ⊢
      exact Io.Ok.pure ⟨by simpa using ha, hs, .refl bs⟩
  | k + 1, pre, run, r, a, bs, hr, ha, hk, hrun, hs => by
      obtain ⟨run, t, rfl⟩ := exists_concat hk
      simp only [mergePeaks]
      rw [show pre ++ (run ++ [t]).map (cid cc) ++ [r.cid cc] =
        (pre ++ run.map (cid cc) ++ [t.cid cc]) ++ [r.cid cc] by simp] at ha
      have hc : a.count - 1 = (pre ++ run.map (cid cc) ++ [t.cid cc]).length := by
        rw [ha.count_eq, List.length_append, List.length_singleton, Nat.add_sub_cancel]
      refine Io.Ok.bind (Io.Ok.lift (checkedSub_of_le (by rw [ha.count_eq]; simp; omega)) ?_)
      rw [hc]
      refine Io.Ok.bind ((Amt.delete_ok hr ha).mono ?_)
      rintro ⟨_, a1⟩ bs1 ⟨rfl, ha1, h1⟩
      have hc1 : a1.count - 1 = (pre ++ run.map (cid cc)).length := by
        rw [ha1.count_eq, List.length_append, List.length_singleton, Nat.add_sub_cancel]
      refine Io.Ok.bind (Io.Ok.lift (checkedSub_of_le (by rw [ha1.count_eq]; simp; omega)) ?_)
      rw [hc1]
      refine Io.Ok.bind ((Amt.delete_ok (hr.of_same h1) (by rw [h1.blocks_eq]; exact ha1)).mono ?_)
      rintro ⟨_, a2⟩ bs2 ⟨rfl, ha2, h2⟩
      have hr2 := (hr.of_same h1).of_same h2
      refine Io.Ok.bind ((hashAndPutPair_ok hr2 _ _).mono ?_)
      rintro _ bs3 ⟨rfl, h3, hle3⟩
      have ha3 : a2.Holds cc bs3.blocks (pre ++ run.map (cid cc)) :=
        (by rw [h2.blocks_eq]; exact ha2 : a2.Holds cc bs2.blocks _).mono hle3.has
      rw [ha3.count_eq]
      have hmax := ha.length_le_maxIndex
      simp only [List.length_append, List.length_singleton, List.length_map] at hmax
      refine Io.Ok.bind ((Amt.set_ok (hr2.of_le hle3) ha3 (by simp; omega) _).mono ?_)
      rintro a4 bs4 ⟨ha4, h4⟩
      have hle : bs.Le cc bs4 := h1.le.trans (h2.le.trans (hle3.trans h4.le))
      have hnode : (node t r).Stored cc bs4 :=
        ⟨h4.le.has _ h3, (hrun t (by simp)).mono hle, hs.mono hle⟩
      refine (mergePeaks_ok k pre run (node t r) a4 bs4 (hr.of_le hle)
        (by rw [h4.blocks_eq]; simpa [pairCid] using ha4) (by simpa using hk)
        (fun u hu => (hrun u (by simp [hu])).mono hle) hnode).mono ?_
      rintro a' bs' ⟨ha', hst, hle'⟩
      exact ⟨by simpa [List.foldr_append] using ha', by simpa [List.foldr_append] using hst, hle.trans hle'⟩

/-- `push` onto the peaks `ts` of `vs`: it stores the leaf and one pair block per merge, and
leaves the peaks of `vs ++ [v]` in memory and flushed. -/
theorem push_ok (hr : bs.Reliable) {vs : List S} {ts : List (Mmr.Tree S)} (hp : Peaks vs ts)
    (hs : ∀ t ∈ ts, t.Stored cc bs) (hn : vs.length + 1 < 2 ^ 64) {a : Amt Cid}
    (ha : a.Holds cc bs.blocks (ts.map (cid cc))) (v : S) :
    (Shared.push cc vs.length a v).Ok bs fun r bs' => ∃ ts',
      Peaks (vs ++ [v]) ts' ∧ (∀ t ∈ ts', t.Stored cc bs') ∧
        r.2.Holds cc bs'.blocks (ts'.map (cid cc)) ∧ Amt.Stored cc bs'.blocks r.1 (ts'.map (cid cc)) ∧
          bs.Le cc bs' := by
  obtain ⟨pre, run, rfl, hlen, hp'⟩ := hp.push hn v
  refine Io.Ok.bind ((put_ok hr _).mono ?_)
  rintro _ bs1 ⟨rfl, h1, hle1⟩
  have ha1 := ha.mono hle1.has
  rw [ha1.count_eq]
  refine Io.Ok.bind ((Amt.set_ok (hr.of_le hle1) ha1 ?_ _).mono ?_)
  · rw [List.length_map]
    exact Nat.le_trans hp.length_le (by decide)
  rintro a2 bs2 ⟨ha2, h2⟩
  have hle2 := hle1.trans h2.le
  rw [List.map_append, show cc.cid (cc.ofValue v) = (leaf v).cid cc from rfl] at ha2
  refine Io.Ok.bind ((mergePeaks_ok _ _ run (leaf v) a2 bs2 (hr.of_le hle2)
    (by rw [h2.blocks_eq]; exact ha2) hlen (fun t ht => (hs t (by simp [ht])).mono hle2)
    (h2.le.has _ h1)).mono ?_)
  rintro a3 bs3 ⟨ha3, h3, hle3⟩
  refine ((Amt.flush_ok (hr.of_le (hle2.trans hle3)) ha3).mono ?_)
  rintro ⟨c, a4⟩ bs4 ⟨ha4, hst4, hle4⟩
  have hle := hle2.trans (hle3.trans hle4)
  refine ⟨pre ++ [run.foldr node (leaf v)], hp', fun t ht => ?_, by simpa using ha4,
    by simpa using hst4, hle⟩
  rcases List.mem_append.1 ht with ht | ht
  · exact (hs t (by simp [ht])).mono hle
  · rw [List.mem_singleton.1 ht]; exact h3.mono hle4

end Fendermint.SharedSpec
