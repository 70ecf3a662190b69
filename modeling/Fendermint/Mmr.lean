import Fendermint.Bits
import Fendermint.Ipld
import Mathlib.Data.List.Forall2

namespace Fendermint.Mmr

open Ipld Bits

variable {Cid Block S : Type}

/-- A binary Merkle tree over leaf values. -/
inductive Tree (S : Type)
  | leaf (v : S)
  | node (l r : Tree S)

namespace Tree

def leaves : Tree S → List S
  | leaf v => [v]
  | node l r => l.leaves ++ r.leaves

/-- The perfect trees of height `h`. -/
def Perfect : Nat → Tree S → Prop
  | 0, leaf _ => True
  | h + 1, node l r => Perfect h l ∧ Perfect h r
  | _, _ => False

/-- The CID of a tree: of its value's block at a leaf, of the pair block at a node. -/
def cid (cc : Codec Cid Block S) : Tree S → Cid
  | leaf v => cc.cid (cc.ofValue v)
  | node l r => cc.cid (cc.ofPair (l.cid cc) (r.cid cc))

/-- Every block of the tree is in the store under its CID. -/
def Stored (cc : Codec Cid Block S) (bs : Blockstore Cid Block) : Tree S → Prop
  | leaf v => bs.Has cc (cc.ofValue v)
  | node l r => bs.Has cc (cc.ofPair (l.cid cc) (r.cid cc)) ∧ l.Stored cc bs ∧ r.Stored cc bs

theorem length_leaves : ∀ {h : Nat} {t : Tree S}, t.Perfect h → t.leaves.length = 2 ^ h
  | 0, leaf _, _ => rfl
  | h + 1, node l r, ⟨hl, hr⟩ => by
      rw [leaves, List.length_append, length_leaves hl, length_leaves hr, Nat.pow_succ]
      omega

variable {cc : Codec Cid Block S} {bs bs' : Blockstore Cid Block}

theorem Stored.mono : ∀ {t : Tree S}, t.Stored cc bs → bs.Le cc bs' → t.Stored cc bs'
  | leaf _, ht, h => h.has _ ht
  | node _ _, ⟨hn, hl, hr⟩, h => ⟨h.has _ hn, hl.mono h, hr.mono h⟩

end Tree

open Tree

/-- The peak a push makes from the new leaf's tree `r` and the run of peaks it completes. -/
theorem perfect_foldr {j : Nat} {r : Tree S} (hr : r.Perfect j) :
    ∀ {k : Nat} {ts : List (Tree S)}, List.Forall₂ Perfect (List.range' j k).reverse ts →
      (ts.foldr node r).Perfect (j + k)
  | 0, _, h => by rw [List.forall₂_nil_left_iff.1 h]; exact hr
  | k + 1, _, h => by
      simp only [List.range'_concat, Nat.one_mul, List.reverse_append, List.reverse_cons,
        List.reverse_nil, List.nil_append, List.singleton_append] at h
      obtain ⟨t, ts, ht, hts, rfl⟩ := List.forall₂_cons_left_iff.1 h
      exact ⟨ht, perfect_foldr hr hts⟩

theorem leaves_foldr (r : Tree S) (ts : List (Tree S)) :
    (ts.foldr node r).leaves = ts.flatMap leaves ++ r.leaves := by
  induction ts with
  | nil => rfl
  | cons t ts ih => simp [leaves, ih]

private theorem forall₂_append_left {α β : Type} {R : α → β → Prop} :
    ∀ {l₁ l₂ : List α} {ts : List β}, List.Forall₂ R (l₁ ++ l₂) ts →
      ∃ t₁ t₂, ts = t₁ ++ t₂ ∧ List.Forall₂ R l₁ t₁ ∧ List.Forall₂ R l₂ t₂
  | [], _, ts, h => ⟨[], ts, rfl, .nil, h⟩
  | _ :: _, _, _, .cons hab h =>
      let ⟨t₁, t₂, e, h₁, h₂⟩ := forall₂_append_left h
      ⟨_ :: t₁, t₂, by rw [e]; rfl, .cons hab h₁, h₂⟩

/-- The peaks of `vs`: one perfect tree per set bit of the count, tallest first. -/
structure Peaks (vs : List S) (ts : List (Tree S)) : Prop where
  perfect : List.Forall₂ Perfect (setBits vs.length) ts
  leaves_eq : ts.flatMap Tree.leaves = vs

theorem Peaks.length_le {vs : List S} {ts : List (Tree S)} (h : Peaks vs ts) : ts.length ≤ 64 :=
  h.perfect.length_eq ▸ length_bitsBelow_le _ _

theorem Peaks.nil : Peaks ([] : List S) [] :=
  ⟨by rw [List.length_nil, setBits_zero]; exact .nil, rfl⟩

/-- The abstract push: appending `v` merges the run of the last `trailing_zeros(!n)` peaks
with the new leaf into one peak. -/
theorem Peaks.push {vs : List S} {ts : List (Tree S)} (h : Peaks vs ts)
    (hn : vs.length + 1 < 2 ^ 64) (v : S) :
    ∃ pre run, ts = pre ++ run ∧ run.length = trailingZeros (complement vs.length) ∧
      Peaks (vs ++ [v]) (pre ++ [run.foldr node (leaf v)]) := by
  obtain ⟨hi, hbits, hbits'⟩ := setBits_succ hn
  obtain ⟨pre, run, rfl, hpre, hrun⟩ := forall₂_append_left (hbits ▸ h.perfect)
  refine ⟨pre, run, rfl, by simpa using hrun.length_eq.symm, ?_, ?_⟩
  · rw [List.length_append, List.length_singleton, hbits']
    refine List.rel_append hpre (.cons ?_ .nil)
    simpa [List.range_eq_range'] using perfect_foldr (j := 0) (r := leaf v) trivial
      (by rwa [← List.range_eq_range'])
  · rw [← h.leaves_eq]
    simp [leaves_foldr, leaves]

/-- The CID of the pair block `[l, r]`: the hash `hash_pair` and `hash_and_put_pair` share. -/
def pairCid (cc : Codec Cid Block S) (l r : Cid) : Cid := cc.cid (cc.ofPair l r)

/-- The CID of the leaf block of `v`, as `put_cbor` computes it. -/
def leafCid (cc : Codec Cid Block S) (v : S) : Cid := cc.cid (cc.ofValue v)

/-- The root of the perfect Merkle tree of height `h` over the leaf CIDs `xs`. -/
def merkleRoot (cc : Codec Cid Block S) : Nat → List Cid → Cid
  | 0, xs => xs.headD cc.default
  | h + 1, xs => pairCid cc (merkleRoot cc h (xs.take (2 ^ h))) (merkleRoot cc h (xs.drop (2 ^ h)))

/-- The peak CIDs over the leaf CIDs `xs` cut into consecutive blocks of the heights `hs`. -/
def mountainRoots (cc : Codec Cid Block S) : List Nat → List Cid → List Cid
  | [], _ => []
  | h :: hs, xs => merkleRoot cc h (xs.take (2 ^ h)) :: mountainRoots cc hs (xs.drop (2 ^ h))

/-- Bagging the peaks, folded from the right; the null CID for none. -/
def bag (cc : Codec Cid Block S) : List Cid → Cid
  | [] => cc.default
  | [p] => p
  | p :: ps => pairCid cc p (bag cc ps)

theorem bag_cons (cc : Codec Cid Block S) {p : Cid} {ps : List Cid} (hps : ps ≠ []) :
    bag cc (p :: ps) = pairCid cc p (bag cc ps) := by
  cases ps with
  | nil => exact absurd rfl hps
  | cons q ps => rfl

/-- The reference commitment to a pushed sequence: the bag of the perfect Merkle trees over
the blocks the one bits of its length give. -/
def commitment (cc : Codec Cid Block S) (vs : List S) : Cid :=
  bag cc (mountainRoots cc (setBits vs.length) (vs.map (leafCid cc)))

@[simp] theorem commitment_nil (cc : Codec Cid Block S) : commitment cc [] = cc.default := by
  simp [commitment, mountainRoots, bag]

/-- Where the block of leaves of peak `j` starts: after the leaves of the taller peaks. -/
def blockStart (hs : List Nat) (j : Nat) : Nat := weight (hs.take j)

theorem blockStart_succ {hs : List Nat} {j h : Nat} (hj : hs[j]? = some h) :
    blockStart hs (j + 1) = blockStart hs j + 2 ^ h := by
  simp [blockStart, List.take_succ, hj]

theorem blockStart_le_succ (hs : List Nat) (j : Nat) : blockStart hs j ≤ blockStart hs (j + 1) := by
  simp [blockStart, List.take_succ]

theorem blockStart_mono {hs : List Nat} {j k : Nat} (h : j ≤ k) : blockStart hs j ≤ blockStart hs k := by
  induction k, h using Nat.le_induction with
  | base => exact le_rfl
  | succ k _ ih => exact ih.trans (blockStart_le_succ hs k)

/-- The blocks of the peaks do not overlap: one peak's block holds a given leaf. -/
theorem blockStart_unique {hs : List Nat} {i j e h h' : Nat} (hj : hs[j]? = some h)
    (he : hs[e]? = some h') (h1 : blockStart hs j ≤ i) (h2 : i < blockStart hs j + 2 ^ h)
    (h3 : blockStart hs e ≤ i) (h4 : i < blockStart hs e + 2 ^ h') : j = e := by
  rcases Nat.lt_trichotomy j e with hlt | rfl | hlt
  · have : blockStart hs (j + 1) ≤ blockStart hs e := blockStart_mono hlt
    rw [blockStart_succ hj] at this
    omega
  · rfl
  · have : blockStart hs (e + 1) ≤ blockStart hs j := blockStart_mono hlt
    rw [blockStart_succ he] at this
    omega

theorem exists_of_forall₂ {α β : Type} {R : α → β → Prop} {l₁ : List α} {l₂ : List β}
    (h : List.Forall₂ R l₁ l₂) : ∀ {e : Nat} {a : α}, l₁[e]? = some a → ∃ b, l₂[e]? = some b ∧ R a b := by
  induction h with
  | nil => simp
  | cons hab _ ih =>
      rintro (_ | e) a he
      · simp only [List.getElem?_cons_zero, Option.some.injEq] at he
        exact ⟨_, List.getElem?_cons_zero, he ▸ hab⟩
      · simpa using ih (by simpa using he)

/-- Leaf `blockStart hs e + o` of the peaks is leaf `o` of peak `e`. -/
theorem getElem?_flatMap_leaves {hs : List Nat} {ts : List (Tree S)} (hf : List.Forall₂ Perfect hs ts) :
    ∀ {e h o : Nat} {t : Tree S}, hs[e]? = some h → ts[e]? = some t → o < 2 ^ h →
      (ts.flatMap leaves)[blockStart hs e + o]? = t.leaves[o]? := by
  induction hf with
  | nil => simp
  | @cons h' t' hs ts ht _ ih =>
      rintro (_ | e) h o t he hte ho
      · simp only [List.getElem?_cons_zero, Option.some.injEq] at he hte
        subst he hte
        rw [List.flatMap_cons, List.getElem?_append_left (by rw [length_leaves ht]; simpa [blockStart])]
        simp [blockStart]
      · have hstart : blockStart (h' :: hs) (e + 1) + o = t'.leaves.length + (blockStart hs e + o) := by
          simp [blockStart, length_leaves ht, Nat.add_assoc]
        rw [hstart, List.flatMap_cons, List.getElem?_append_right (Nat.le_add_right _ _),
          Nat.add_sub_cancel_left]
        exact ih (by simpa using he) (by simpa using hte) ho

theorem cid_eq_merkleRoot (cc : Codec Cid Block S) :
    ∀ {h : Nat} {t : Tree S}, t.Perfect h → t.cid cc = merkleRoot cc h (t.leaves.map (leafCid cc))
  | 0, leaf _, _ => rfl
  | h + 1, node l r, ⟨hl, hr⟩ => by
      have hlen : (l.leaves.map (leafCid cc)).length = 2 ^ h := by simp [length_leaves hl]
      simp only [cid, leaves, List.map_append, merkleRoot, List.take_left' hlen,
        List.drop_left' hlen, ← cid_eq_merkleRoot cc hl, ← cid_eq_merkleRoot cc hr, pairCid]

theorem map_cid_eq_mountainRoots (cc : Codec Cid Block S) :
    ∀ {hs : List Nat} {ts : List (Tree S)}, List.Forall₂ Perfect hs ts →
      ts.map (cid cc) = mountainRoots cc hs ((ts.flatMap leaves).map (leafCid cc))
  | [], [], _ => rfl
  | h :: hs, t :: ts, .cons ht hts => by
      have hlen : (t.leaves.map (leafCid cc)).length = 2 ^ h := by simp [length_leaves ht]
      simp only [List.map_cons, List.flatMap_cons, List.map_append, mountainRoots,
        List.take_left' hlen, List.drop_left' hlen, ← cid_eq_merkleRoot cc ht,
        ← map_cid_eq_mountainRoots cc hts]

/-- The peaks of `vs` are the reference ones: their CIDs depend on `vs` alone. -/
theorem Peaks.map_cid {vs : List S} {ts : List (Tree S)} (h : Peaks vs ts) (cc : Codec Cid Block S) :
    ts.map (cid cc) = mountainRoots cc (setBits vs.length) (vs.map (leafCid cc)) := by
  rw [map_cid_eq_mountainRoots cc h.perfect, h.leaves_eq]

theorem Peaks.commitment_eq {vs : List S} {ts : List (Tree S)} (h : Peaks vs ts) (cc : Codec Cid Block S) :
    commitment cc vs = bag cc (ts.map (cid cc)) := by
  rw [commitment, h.map_cid cc]

end Fendermint.Mmr
