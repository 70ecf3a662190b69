import Fendermint.Amt
import Mathlib.Order.Basic

namespace Fendermint

open Ipld Amt

variable {Cid Block S : Type}

namespace Amt

theorem nodesForHeight_pos (h : Nat) : 0 < nodesForHeight h := by
  unfold nodesForHeight
  split
  · decide
  · exact Nat.two_pow_pos _

theorem nodesForHeight_le_maxIndex (h : Nat) : nodesForHeight h ≤ maxIndex + 1 := by
  unfold nodesForHeight maxIndex
  split
  · decide
  · have : 2 ^ (3 * h) ≤ 2 ^ 63 := Nat.pow_le_pow_right (by decide) (by omega)
    omega

theorem nodesForHeight_succ_le (h : Nat) : nodesForHeight (h + 1) ≤ 8 * nodesForHeight h := by
  have h8 : 2 ^ (3 * (h + 1)) = 8 * 2 ^ (3 * h) := by rw [Nat.mul_succ, Nat.pow_add]; omega
  unfold nodesForHeight
  split_ifs with h1 h2
  · omega
  · have : 2 ^ 61 ≤ 2 ^ (3 * h) := Nat.pow_le_pow_right (by decide) (by omega)
    omega
  · omega
  · omega

theorem nodesForHeight_le_succ (h : Nat) : nodesForHeight h ≤ nodesForHeight (h + 1) := by
  have h8 : 2 ^ (3 * (h + 1)) = 8 * 2 ^ (3 * h) := by rw [Nat.mul_succ, Nat.pow_add]; omega
  unfold nodesForHeight
  split_ifs with h1 h2
  · omega
  · omega
  · have : 2 ^ (3 * h) ≤ 2 ^ 63 := Nat.pow_le_pow_right (by decide) (by omega)
    omega
  · omega

theorem nodesForHeight_mono {h h' : Nat} (hh : h ≤ h') : nodesForHeight h ≤ nodesForHeight h' := by
  induction hh with
  | refl => exact Nat.le_refl _
  | step _ ih => exact Nat.le_trans ih (nodesForHeight_le_succ _)

/-- From height 22 on, a node covers every index. -/
theorem maxIndex_lt_nodesForHeight {h : Nat} (hh : 22 ≤ h) : maxIndex < nodesForHeight h := by
  unfold nodesForHeight maxIndex
  rw [if_pos (by omega)]
  decide

/-- Below the top height, a node covers fewer than `2 ^ 64 - 1` indices. -/
theorem lt_of_nodesForHeight_le {h i : Nat} (hi : i ≤ maxIndex) (hle : nodesForHeight h ≤ i) :
    h < 22 := by
  by_contra hh
  have := maxIndex_lt_nodesForHeight (h := h) (by omega)
  omega

@[simp] theorem nodesForHeight_one : nodesForHeight 1 = 8 := rfl

theorem div_lt_eight {h i : Nat} (hi : i < nodesForHeight (h + 2)) : i / nodesForHeight (h + 1) < 8 :=
  Nat.div_lt_of_lt_mul (by
    have : nodesForHeight (h + 2) ≤ 8 * nodesForHeight (h + 1) := nodesForHeight_succ_le (h + 1)
    rw [Nat.mul_comm]; omega)

end Amt

/-- The part of the array `f` that child `k` of a node at height `h + 1` covers. -/
def slice (f : Nat → Option Cid) (h k j : Nat) : Option Cid :=
  if j < nodesForHeight (h + 1) then f (nodesForHeight (h + 1) * k + j) else none

theorem slice_div_mod (f : Nat → Option Cid) (h i : Nat) :
    slice f h (i / nodesForHeight (h + 1)) (i % nodesForHeight (h + 1)) = f i := by
  rw [slice, if_pos (Nat.mod_lt _ (nodesForHeight_pos _)), Nat.div_add_mod]

theorem slice_of_le {f : Nat → Option Cid} {h k j : Nat} (hj : nodesForHeight (h + 1) ≤ j) :
    slice f h k j = none := if_neg (Nat.not_lt.2 hj)

/-- The index `j` of child `k` is `i` exactly when `k` and `j` are the quotient and the
remainder of `i`. -/
theorem index_eq_iff {M k j i : Nat} (hj : j < M) : M * k + j = i ↔ k = i / M ∧ j = i % M := by
  constructor
  · rintro rfl
    rw [Nat.mul_add_div (Nat.zero_lt_of_lt hj), Nat.div_eq_of_lt hj, Nat.mul_add_mod, Nat.mod_eq_of_lt hj]
    simp
  · rintro ⟨rfl, rfl⟩
    exact Nat.div_add_mod i M

theorem slice_update_self (f : Nat → Option Cid) (h i : Nat) (o : Option Cid) :
    slice (Function.update f i o) h (i / nodesForHeight (h + 1)) =
      Function.update (slice f h (i / nodesForHeight (h + 1))) (i % nodesForHeight (h + 1)) o := by
  funext j
  unfold slice
  split
  · rename_i hj
    simp only [Function.update_apply, index_eq_iff hj, true_and]
    split <;> simp_all
  · rename_i hj
    have hne : j ≠ i % nodesForHeight (h + 1) := fun he => hj (he ▸ Nat.mod_lt _ (nodesForHeight_pos _))
    rw [Function.update_noteq hne, if_neg hj]

theorem slice_update_ne (f : Nat → Option Cid) {h i k : Nat} (o : Option Cid)
    (hk : k ≠ i / nodesForHeight (h + 1)) : slice (Function.update f i o) h k = slice f h k := by
  funext j
  unfold slice
  split
  · rename_i hj
    rw [Function.update_noteq fun he => hk ((index_eq_iff hj).1 he).1]
  · rfl

variable (cc : Codec Cid Block S) (blocks : Cid → Option Block)

/-- The block under `c` is stored under its CID, and loads as the node `n`. -/
def Loads (c : Cid) (n : Node Cid) : Prop :=
  ∃ b, c = cc.cid b ∧ blocks c = some b ∧ (cc.toNode b).bind Collapsed.expand = some n

/-- Every block `blocks` holds under its CID, `blocks'` holds too. -/
def Grows (blocks' : Cid → Option Block) : Prop :=
  ∀ b, blocks (cc.cid b) = some b → blocks' (cc.cid b) = some b

section

variable {cc blocks} {blocks' : Cid → Option Block}

theorem Loads.mono {c : Cid} {n : Node Cid} (hg : Grows cc blocks blocks') :
    Loads cc blocks c n → Loads cc blocks' c n := by
  rintro ⟨b, rfl, hb, hd⟩
  exact ⟨b, rfl, hg b hb, hd⟩

end

namespace Node

/-- What a slot holds for the part `g` of the array, `P` saying what a child holding a part
is: an empty slot an empty part, and a link a nonempty one, through the node in memory, or the
node stored under its CID and the one in its cache. -/
def SlotHolds (P : Node Cid → (Nat → Option Cid) → Prop) :
    Option (Link Cid) → (Nat → Option Cid) → Prop
  | none, g => ∀ j, g j = none
  | some (.dirty n), g => (∃ j, g j ≠ none) ∧ P n g
  | some (.cid c cache), g => (∃ j, g j ≠ none) ∧ (∃ n, Loads cc blocks c n ∧ P n g) ∧ ∀ n ∈ cache, P n g

/-- The node at height `h` holds the array `f`: a leaf its eight values; a link node, of eight
slots, in each slot the part of `f` its child covers, and nothing beyond. -/
def Holds : Nat → Node Cid → (Nat → Option Cid) → Prop
  | 0, n, f => ∃ vals, n = leaf vals ∧ vals.length = 8 ∧ ∀ i, f i = vals.getD i none
  | h + 1, n, f => ∃ links, n = link links ∧ links.length = 8 ∧
      (∀ i, nodesForHeight (h + 2) ≤ i → f i = none) ∧
      ∀ k < 8, SlotHolds cc blocks (Holds h) (links.getD k none) (slice f h k)

variable {cc blocks} {blocks' : Cid → Option Block}

theorem SlotHolds.imp {P Q : Node Cid → (Nat → Option Cid) → Prop} (hg : Grows cc blocks blocks')
    (hPQ : ∀ n g, P n g → Q n g) :
    ∀ {o : Option (Link Cid)} {g : Nat → Option Cid}, SlotHolds cc blocks P o g → SlotHolds cc blocks' Q o g
  | none, _, h => h
  | some (.dirty _), _, ⟨hne, hP⟩ => ⟨hne, hPQ _ _ hP⟩
  | some (.cid _ _), _, ⟨hne, ⟨n, hl, hP⟩, hc⟩ =>
      ⟨hne, ⟨n, hl.mono hg, hPQ _ _ hP⟩, fun n hn => hPQ _ _ (hc n hn)⟩

theorem Holds.mono (hg : Grows cc blocks blocks') :
    ∀ {h : Nat} {n : Node Cid} {f : Nat → Option Cid}, Holds cc blocks h n f → Holds cc blocks' h n f
  | 0, _, _, hn => hn
  | _ + 1, _, _, ⟨links, rfl, hlen, hout, hs⟩ =>
      ⟨links, rfl, hlen, hout, fun k hk => (hs k hk).imp hg fun _ _ => Holds.mono hg⟩

theorem Holds.eq_none {h : Nat} {n : Node Cid} {f : Nat → Option Cid} (hn : Holds cc blocks h n f)
    {i : Nat} (hi : nodesForHeight (h + 1) ≤ i) : f i = none := by
  cases h with
  | zero =>
      obtain ⟨vals, rfl, hlen, hf⟩ := hn
      rw [hf, List.getD_eq_getElem?_getD, List.getElem?_eq_none (by simp_all)]
      rfl
  | succ h =>
      obtain ⟨_, -, -, hout, -⟩ := hn
      exact hout i hi

/-- A node holds the array `f` by its slots: the value at `i` is in slot `i / M`, at `i % M`. -/
theorem Holds.eq_slice {h : Nat} {links : List (Option (Link Cid))} {f : Nat → Option Cid}
    (hn : Holds cc blocks (h + 1) (link links) f) (i : Nat) :
    f i = if i / nodesForHeight (h + 1) < 8 then slice f h (i / nodesForHeight (h + 1))
      (i % nodesForHeight (h + 1)) else none := by
  split
  · exact (slice_div_mod f h i).symm
  · exact hn.eq_none (Nat.not_lt.1 fun hi => by rename_i h8; exact h8 (div_lt_eight hi))

theorem SlotHolds.eq_none_iff {P : Node Cid → (Nat → Option Cid) → Prop} {o : Option (Link Cid)}
    {g : Nat → Option Cid} (hs : SlotHolds cc blocks P o g) : o = none ↔ ∀ j, g j = none := by
  rcases o with _ | _ | _
  · exact ⟨fun _ => hs, fun _ => rfl⟩
  all_goals
    obtain ⟨⟨j, hj⟩, -⟩ := hs
    exact ⟨nofun, fun h => absurd (h j) hj⟩

theorem all_isNone_iff {α : Type} {l : List (Option α)} :
    l.all Option.isNone = true ↔ ∀ k, l.getD k none = none := by
  simp only [List.all_eq_true, Option.isNone_iff_eq_none, List.getD_eq_getElem?_getD]
  constructor
  · intro h k
    rcases hk : l[k]? with _ | o
    · rfl
    · simpa using h _ (List.getElem?_mem hk)
  · intro h o ho
    obtain ⟨k, hk, rfl⟩ := List.getElem_of_mem ho
    simpa [hk] using h k

/-- A node is empty exactly when the array it holds is. -/
theorem Holds.isEmpty_iff {h : Nat} {n : Node Cid} {f : Nat → Option Cid} (hn : Holds cc blocks h n f) :
    n.isEmpty = true ↔ ∀ i, f i = none := by
  cases h with
  | zero =>
      obtain ⟨vals, rfl, -, hf⟩ := hn
      simp only [isEmpty, all_isNone_iff, hf]
  | succ h =>
      obtain ⟨links, rfl, hlen, hout, hs⟩ := hn
      rw [isEmpty, all_isNone_iff]
      refine ⟨fun hl i => ?_, fun hf k => ?_⟩
      · rw [Holds.eq_slice ⟨links, rfl, hlen, hout, hs⟩ i]
        split
        · exact (hs _ ‹_›).eq_none_iff.1 (hl _) _
        · rfl
      · by_cases hk : k < 8
        · exact (hs k hk).eq_none_iff.2 fun j => by unfold slice; split <;> simp [hf]
        · simp [List.getD_eq_getElem?_getD, List.getElem?_eq_none, hlen, Nat.le_of_not_lt hk]

theorem SlotHolds.withNode {P : Node Cid → (Nat → Option Cid) → Prop} {l : Link Cid}
    {g : Nat → Option Cid} {n : Node Cid} (hl : SlotHolds cc blocks P (some l) g) (hn : P n g) :
    SlotHolds cc blocks P (some (l.withNode n)) g := by
  match l, hl with
  | .dirty _, ⟨hne, _⟩ => exact ⟨hne, hn⟩
  | .cid _ _, ⟨hne, hc, _⟩ => exact ⟨hne, hc, fun _ h => by cases h; exact hn⟩

theorem getD_set_self {α : Type} {l : List (Option α)} {k : Nat} (hk : k < l.length) (o : Option α) :
    (l.set k o).getD k none = o := by
  simp [List.getD_eq_getElem?_getD, hk]

theorem getD_set_ne {α : Type} (l : List (Option α)) {k k' : Nat} (o : Option α) (hk : k' ≠ k) :
    (l.set k o).getD k' none = l.getD k' none := by
  simp [List.getD_eq_getElem?_getD, List.getElem?_set, Ne.symm hk]

/-- A link node with its slot `k` replaced holds `f'`, where the new slot holds its part of `f'`
and `f'` agrees with `f` on the other slots. -/
theorem Holds.link_set {h k : Nat} {links : List (Option (Link Cid))} {f f' : Nat → Option Cid}
    {o : Option (Link Cid)} (hn : Holds cc blocks (h + 1) (link links) f) (hk : k < 8)
    (hout : ∀ i, nodesForHeight (h + 2) ≤ i → f' i = none)
    (hslot : SlotHolds cc blocks (Holds cc blocks h) o (slice f' h k))
    (hother : ∀ k', k' ≠ k → slice f' h k' = slice f h k') :
    Holds cc blocks (h + 1) (link (links.set k o)) f' := by
  obtain ⟨_, he, hlen, -, hs⟩ := hn
  cases he
  refine ⟨_, rfl, by simp [hlen], hout, fun k' hk' => ?_⟩
  by_cases hkk : k' = k
  · subst hkk
    rwa [getD_set_self (by omega)]
  · rw [getD_set_ne _ _ hkk, hother k' hkk]
    exact hs k' hk'

theorem Holds.slot {h : Nat} {links : List (Option (Link Cid))} {f : Nat → Option Cid}
    (hn : Holds cc blocks (h + 1) (link links) f) {k : Nat} {l : Link Cid}
    (hl : links.getD k none = some l) :
    k < 8 ∧ SlotHolds cc blocks (Holds cc blocks h) (some l) (slice f h k) := by
  obtain ⟨_, he, hlen, -, hs⟩ := hn
  cases he
  have hk : k < 8 := by
    by_contra hk
    simp [List.getD_eq_getElem?_getD, List.getElem?_eq_none, hlen, Nat.le_of_not_lt hk] at hl
  exact ⟨hk, hl ▸ hs k hk⟩

/-- No slot of the node holds a dirty link: the node serializes. -/
def Clean : Node Cid → Prop
  | leaf _ => True
  | link links => ∀ o ∈ links, ∀ l ∈ o, (Link.cid? l).isSome

/-- No slot of the node caches a child or holds a dirty one: the node as `expand` builds it. -/
def Fresh : Node Cid → Prop
  | leaf _ => True
  | link links => ∀ o ∈ links, ∀ l ∈ o, ∃ c, l = .cid c none

theorem expand_fresh {c : Collapsed Cid} {n : Node Cid} (h : c.expand = some n) : n.Fresh := by
  unfold Collapsed.expand at h
  split_ifs at h
  · obtain ⟨cs, -, rfl⟩ := Option.map_eq_some'.1 h
    simp only [Fresh, List.mem_map]
    rintro _ ⟨o, -, rfl⟩ l hl
    obtain ⟨c, -, rfl⟩ := Option.map_eq_some'.1 hl
    exact ⟨c, rfl⟩
  · obtain ⟨_, -, rfl⟩ := Option.map_eq_some'.1 h
    trivial

theorem fill_bitmap {α : Type} : ∀ cs : List (Option α),
    fill (cs.map Option.isSome) (cs.filterMap id) = some cs
  | [] => rfl
  | none :: cs => by simp [fill, fill_bitmap cs]
  | some _ :: cs => by simp [fill, fill_bitmap cs]

theorem mapM_cid? : ∀ {links : List (Option (Link Cid))}, (∀ o ∈ links, ∀ l ∈ o, (Link.cid? l).isSome) →
    links.mapM (fun o => o.mapM Link.cid?) = some (links.map (·.bind Link.cid?))
  | [], _ => rfl
  | o :: links, h => by
      rw [List.mapM_cons, mapM_cid? fun o' ho' => h o' (List.mem_cons_of_mem _ ho')]
      rcases o with _ | l
      · rfl
      · obtain ⟨c, hc⟩ := Option.isSome_iff_exists.1 (h _ (List.mem_cons_self _ _) l rfl)
        simp [Option.mapM, hc]

theorem getD_map_none {α β : Type} (l : List (Option α)) {g : Option α → Option β} (hg : g none = none)
    (k : Nat) : (l.map g).getD k none = g (l.getD k none) := by
  simp only [List.getD_eq_getElem?_getD, List.getElem?_map]
  cases l[k]? <;> simp [hg]

/-- A clean node holding an array, nonempty above height 0, collapses to a block that expands
to a node holding the same array, its links uncached. -/
theorem Holds.expand_collapse {h : Nat} {n : Node Cid} {f : Nat → Option Cid}
    (hn : Holds cc blocks h n f) (hc : n.Clean) (hne : h = 0 ∨ ∃ i, f i ≠ none) :
    ∃ c n0, n.collapse = some c ∧ c.expand = some n0 ∧ Holds cc blocks h n0 f := by
  cases h with
  | zero =>
      obtain ⟨vals, rfl, hlen, hf⟩ := hn
      refine ⟨_, _, rfl, ?_, ⟨vals, rfl, hlen, hf⟩⟩
      simp [Collapsed.expand, hlen, fill_bitmap]
  | succ h =>
      obtain ⟨links, rfl, hlen, hout, hs⟩ := hn
      have hn : Holds cc blocks (h + 1) (link links) f := ⟨links, rfl, hlen, hout, hs⟩
      have hne' : ∃ i, f i ≠ none := hne.resolve_left (Nat.succ_ne_zero h)
      have hex : ∃ c, c ∈ (links.map (·.bind Link.cid?)).filterMap id := by
        have hsome : ¬ ∀ o ∈ links, o = none := fun hall => by
          obtain ⟨i, hi⟩ := hne'
          exact hi (hn.isEmpty_iff.1 (by simpa [isEmpty, List.all_eq_true] using hall) i)
        obtain ⟨o, ho, hon⟩ : ∃ o ∈ links, o ≠ none := by simpa using hsome
        obtain ⟨l, rfl⟩ := Option.ne_none_iff_exists'.1 hon
        obtain ⟨c, hc'⟩ := Option.isSome_iff_exists.1 (hc _ ho l rfl)
        exact ⟨c, List.mem_filterMap.2 ⟨some c, List.mem_map.2 ⟨some l, ho, by simp [hc']⟩, rfl⟩⟩
      obtain ⟨c, hcmem⟩ := hex
      refine ⟨_, link ((links.map (·.bind Link.cid?)).map (·.map (.cid · none))),
        by simp only [collapse, mapM_cid? hc]; rfl, ?_, ?_⟩
      · have hne : ((links.map (·.bind Link.cid?)).filterMap id).isEmpty = false :=
          List.isEmpty_eq_false_iff_exists_mem.2 ⟨c, hcmem⟩
        simp only [Collapsed.expand, hne, List.isEmpty_nil, fill_bitmap, List.length_map, hlen]
        rfl
      · refine ⟨_, rfl, by simp [hlen], hout, fun k hk => ?_⟩
        rw [List.map_map, getD_map_none _ rfl]
        have hsk := hs k hk
        rcases hl : links.getD k none with _ | ⟨c', cache⟩ | n'
        · rw [hl] at hsk; exact hsk
        · rw [hl] at hsk
          exact ⟨hsk.1, hsk.2.1, fun _ h => nomatch h⟩
        · exact absurd (hc _ (List.getElem?_mem (by
            rw [List.getD_eq_getElem?_getD] at hl
            rcases he : links[k]? with _ | o
            · simp [he] at hl
            · simp [he] at hl; rw [hl])) _ rfl) (by simp [Link.cid?])

section Ops

variable {cc : Codec Cid Block S} {bs : Blockstore Cid Block}

theorem loadNode_ok (hr : bs.Reliable) {c : Cid} {n : Node Cid} (h : Loads cc bs.blocks c n) :
    (loadNode cc c).Ok bs fun n' bs' => n' = n ∧ bs.Same bs' := by
  obtain ⟨b, rfl, hb, hd⟩ := h
  exact Io.Ok.bind ((getCbor_ok hr hb hd).mono fun _ _ ho => by
    rw [ho.1]
    exact Io.Ok.pure ⟨rfl, ho.2⟩)

theorem Link.node_ok (hr : bs.Reliable) {P : Node Cid → (Nat → Option Cid) → Prop} {l : Link Cid}
    {g : Nat → Option Cid} (h : SlotHolds cc bs.blocks P (some l) g) :
    (l.node cc).Ok bs fun n bs' => P n g ∧ bs.Same bs' := by
  match l, h with
  | .dirty _, ⟨_, hP⟩ => exact Io.Ok.pure ⟨hP, .refl bs⟩
  | .cid _ (some n), ⟨_, _, hc⟩ => exact Io.Ok.pure ⟨hc n rfl, .refl bs⟩
  | .cid _ none, ⟨_, ⟨_, hl, hP⟩, _⟩ =>
      exact (loadNode_ok hr hl).mono fun _ _ h => ⟨h.1 ▸ hP, h.2⟩

theorem Holds.of_same {bs' : Blockstore Cid Block} (hs : bs.Same bs') {h : Nat} {n : Node Cid}
    {f : Nat → Option Cid} (hn : Holds cc bs.blocks h n f) : Holds cc bs'.blocks h n f := by
  rwa [hs.blocks_eq]

/-- `Node::get` reads the array the node holds, and leaves a node holding it. -/
theorem get_ok : ∀ {h : Nat} {n : Node Cid} {f : Nat → Option Cid} {bs : Blockstore Cid Block},
    bs.Reliable → Holds cc bs.blocks h n f → ∀ i, (n.get cc h i).Ok bs fun r bs' =>
      r.1 = f i ∧ Holds cc bs.blocks h r.2 f ∧ bs.Same bs'
  | 0, _, _, bs, _, ⟨vals, rfl, hlen, hf⟩, i =>
      Io.Ok.pure ⟨(hf i).symm, ⟨vals, rfl, hlen, hf⟩, .refl bs⟩
  | h + 1, _, f, bs, hr, ⟨links, rfl, hlen, hout, hs⟩, i => by
      have hn : Holds cc bs.blocks (h + 1) (link links) f := ⟨links, rfl, hlen, hout, hs⟩
      simp only [Node.get]
      split
      · rename_i hnone
        refine Io.Ok.pure ⟨?_, hn, .refl bs⟩
        rw [hn.eq_slice i]
        split
        · exact ((hs _ ‹_›).eq_none_iff.1 hnone _).symm
        · rfl
      · rename_i l hl
        obtain ⟨hk, hsl⟩ := hn.slot hl
        refine Io.Ok.bind ((Link.node_ok hr hsl).mono fun n bs1 ⟨hn1, hs1⟩ => ?_)
        refine Io.Ok.bind ((get_ok (hr.of_same hs1) (hn1.of_same hs1) _).mono
          fun ⟨v, n'⟩ bs2 ⟨hv, hn2, hs2⟩ => ?_)
        rw [hs1.blocks_eq] at hn2
        exact Io.Ok.pure ⟨hv.trans (slice_div_mod f h i),
          hn.link_set hk hout (hsl.withNode hn2) fun _ _ => rfl, hs1.trans hs2⟩

theorem Holds.empty (h : Nat) :
    Holds cc blocks h (if h = 0 then leaf emptySlots else link emptySlots) fun _ => none := by
  cases h with
  | zero =>
      refine ⟨_, rfl, rfl, fun i => ?_⟩
      rw [List.getD_eq_getElem?_getD, emptySlots, List.getElem?_replicate]
      split <;> rfl
  | succ h =>
      refine ⟨_, rfl, rfl, fun _ _ => rfl, fun k _ => ?_⟩
      simp only [emptySlots, List.getD_eq_getElem?_getD, List.getElem?_replicate]
      split <;> exact fun j => by unfold slice; split <;> rfl

/-- The child `Node::set` descends into holds the part of the array under its slot. -/
theorem setChild_ok {h : Nat} {o : Option (Link Cid)} {g : Nat → Option Cid} (hr : bs.Reliable)
    (ho : SlotHolds cc bs.blocks (Holds cc bs.blocks h) o g) :
    (setChild cc h o).Ok bs fun n bs' => Holds cc bs.blocks h n g ∧ bs.Same bs' := by
  cases o with
  | some l => exact Link.node_ok hr ho
  | none =>
      rw [funext (ho.eq_none_iff.1 rfl)]
      exact Io.Ok.pure ⟨Holds.empty h, .refl bs⟩

/-- `Node::set` writes the value at `i` into the array the node holds, and returns the value
it replaces. -/
theorem set_ok : ∀ {h : Nat} {n : Node Cid} {f : Nat → Option Cid} {bs : Blockstore Cid Block},
    bs.Reliable → Holds cc bs.blocks h n f → ∀ {i}, i < nodesForHeight (h + 1) → ∀ v,
      (n.set cc h i v).Ok bs fun r bs' =>
        r.1 = f i ∧ Holds cc bs.blocks h r.2 (Function.update f i (some v)) ∧ bs.Same bs'
  | 0, _, f, bs, _, ⟨vals, rfl, hlen, hf⟩, i, hi, v => by
      rw [nodesForHeight_one] at hi
      simp only [Node.set, hlen, if_pos hi]
      refine Io.Ok.pure ⟨(hf i).symm, ⟨_, rfl, by simp [hlen], fun i' => ?_⟩, .refl bs⟩
      by_cases hi' : i' = i
      · subst hi'
        rw [Function.update_same, getD_set_self (by omega)]
      · rw [Function.update_noteq hi', getD_set_ne _ _ hi', hf]
  | h + 1, _, f, bs, hr, ⟨links, rfl, hlen, hout, hs⟩, i, hi, v => by
      have hn : Holds cc bs.blocks (h + 1) (link links) f := ⟨links, rfl, hlen, hout, hs⟩
      have hk := div_lt_eight hi
      have hi2 : i < nodesForHeight (h + 2) := hi
      simp only [Node.set, hlen, if_pos hk]
      refine Io.Ok.bind ((setChild_ok hr (hs _ hk)).mono fun n bs1 ⟨hn1, hs1⟩ => ?_)
      refine Io.Ok.bind ((set_ok (hr.of_same hs1) (hn1.of_same hs1)
        (Nat.mod_lt _ (nodesForHeight_pos _)) v).mono fun ⟨old, n'⟩ bs2 ⟨hold, hn2, hs2⟩ => ?_)
      rw [hs1.blocks_eq, ← slice_update_self] at hn2
      refine Io.Ok.pure ⟨hold.trans (slice_div_mod f h i), hn.link_set hk (fun i' hi' => ?_)
        ⟨⟨i % nodesForHeight (h + 1), ?_⟩, hn2⟩ fun _ hk' => slice_update_ne f _ hk', hs1.trans hs2⟩
      · rw [Function.update_noteq (by omega)]
        exact hout i' hi'
      · rw [slice_update_self, Function.update_same]
        exact Option.some_ne_none v

theorem update_eq_self {f : Nat → Option Cid} {i : Nat} (h : f i = none) :
    Function.update f i none = f := by
  rw [← h, Function.update_eq_self]

/-- `Node::delete` removes the value at `i` from the array the node holds, and returns it. -/
theorem delete_ok : ∀ {h : Nat} {n : Node Cid} {f : Nat → Option Cid} {bs : Blockstore Cid Block},
    bs.Reliable → Holds cc bs.blocks h n f → ∀ {i}, i < nodesForHeight (h + 1) →
      (n.delete cc h i).Ok bs fun r bs' =>
        r.1 = f i ∧ Holds cc bs.blocks h r.2 (Function.update f i none) ∧ bs.Same bs'
  | 0, _, f, bs, _, ⟨vals, rfl, hlen, hf⟩, i, hi => by
      rw [nodesForHeight_one] at hi
      refine Io.Ok.pure ⟨(hf i).symm, ⟨_, rfl, by simp [hlen], fun i' => ?_⟩, .refl bs⟩
      by_cases hi' : i' = i
      · subst hi'
        rw [Function.update_same, getD_set_self (by omega)]
      · rw [Function.update_noteq hi', getD_set_ne _ _ hi', hf]
  | h + 1, _, f, bs, hr, ⟨links, rfl, hlen, hout, hs⟩, i, hi => by
      have hn : Holds cc bs.blocks (h + 1) (link links) f := ⟨links, rfl, hlen, hout, hs⟩
      have hk := div_lt_eight hi
      have hi2 : i < nodesForHeight (h + 2) := hi
      have hfi := slice_div_mod f h i
      simp only [Node.delete, hlen, if_pos hk]
      split
      · rename_i hl
        have hnone : f i = none := hfi ▸ (hs _ hk).eq_none_iff.1 hl _
        exact Io.Ok.pure ⟨hnone.symm, by rwa [update_eq_self hnone], .refl bs⟩
      rename_i l hl
      have hsl := hl ▸ hs _ hk
      refine Io.Ok.bind ((Link.node_ok hr hsl).mono fun n bs1 ⟨hn1, hs1⟩ => ?_)
      refine Io.Ok.bind ((delete_ok (hr.of_same hs1) (hn1.of_same hs1)
        (Nat.mod_lt _ (nodesForHeight_pos _))).mono fun ⟨old, n'⟩ bs2 ⟨hold, hn2, hs2⟩ => ?_)
      rw [hs1.blocks_eq, ← slice_update_self] at hn2
      have hout' : ∀ i', nodesForHeight (h + 2) ≤ i' → Function.update f i none i' = none :=
        fun i' hi' => by rw [Function.update_noteq (by omega)]; exact hout i' hi'
      rcases old with _ | old
      · have hnone : f i = none := hfi.symm.trans hold.symm
        rw [update_eq_self hnone] at hn2 ⊢
        exact Io.Ok.pure ⟨hnone.symm, hn.link_set hk hout (hsl.withNode hn2) fun _ _ => rfl,
          hs1.trans hs2⟩
      · refine Io.Ok.pure ⟨hold.trans hfi, hn.link_set hk hout' ?_ fun _ hk' => slice_update_ne f _ hk',
          hs1.trans hs2⟩
        cases he : n'.isEmpty
        · exact ⟨not_forall.1 fun h => absurd (hn2.isEmpty_iff.2 h) (by simp [he]), hn2⟩
        · exact hn2.isEmpty_iff.1 he

/-- A node whose slots past the first are empty holds in its first slot all of its array. -/
theorem Holds.slice_zero {h : Nat} {links : List (Option (Link Cid))} {f : Nat → Option Cid}
    (hn : Holds cc blocks (h + 1) (link links) f) (hdrop : (links.drop 1).all Option.isNone = true) :
    slice f h 0 = f := by
  funext j
  by_cases hj : j < nodesForHeight (h + 1)
  · rw [slice, if_pos hj, Nat.mul_zero, Nat.zero_add]
  · rw [slice_of_le (Nat.le_of_not_lt hj), hn.eq_slice j]
    obtain ⟨_, he, -, -, hs⟩ := hn
    cases he
    split
    · rename_i hk
      have hk1 : 1 ≤ j / nodesForHeight (h + 1) :=
        (Nat.le_div_iff_mul_le (nodesForHeight_pos _)).2 (by omega)
      have hnone : links.getD (j / nodesForHeight (h + 1)) none = none := by
        have := (all_isNone_iff.1 hdrop) (j / nodesForHeight (h + 1) - 1)
        rwa [List.getD_eq_getElem?_getD, List.getElem?_drop, Nat.add_sub_cancel' hk1,
          ← List.getD_eq_getElem?_getD] at this
      exact ((hs _ hk).eq_none_iff.1 hnone _).symm
    · rfl

/-- The loop collapsing the root keeps the array it holds, and never raises the height. -/
theorem collapseRoot_ok : ∀ {h : Nat} {n : Node Cid} {f : Nat → Option Cid} {bs : Blockstore Cid Block},
    bs.Reliable → Holds cc bs.blocks h n f → (∃ i, f i ≠ none) →
      (n.collapseRoot cc h).Ok bs fun r bs' => Holds cc bs.blocks r.1 r.2 f ∧ r.1 ≤ h ∧ bs.Same bs'
  | 0, _, _, bs, _, hn, _ => Io.Ok.pure ⟨hn, Nat.le_refl 0, .refl bs⟩
  | h + 1, _, f, bs, hr, ⟨links, rfl, hlen, hout, hs⟩, hne => by
      have hn : Holds cc bs.blocks (h + 1) (link links) f := ⟨links, rfl, hlen, hout, hs⟩
      simp only [Node.collapseRoot]
      split
      · rename_i hdrop
        have hf0 := hn.slice_zero hdrop
        obtain ⟨l, hl⟩ : ∃ l, links.getD 0 none = some l := by
          rcases hl : links.getD 0 none with _ | l
          · exact absurd ((hs 0 (by decide)).eq_none_iff.1 hl) (by rw [hf0]; simpa using hne)
          · exact ⟨l, rfl⟩
        have hhead : links.head? = some (some l) := by
          rw [← hl, List.getD_eq_getElem?_getD, List.head?_eq_getElem?]
          cases links <;> simp_all
        rw [hhead]
        obtain ⟨-, hsl⟩ := hn.slot hl
        rw [hf0] at hsl
        refine Io.Ok.bind ((Link.node_ok hr hsl).mono fun n bs1 ⟨hn1, hs1⟩ => ?_)
        exact (collapseRoot_ok (hr.of_same hs1) (hn1.of_same hs1) hne).mono fun r bs2 ⟨h2, hle, hs2⟩ =>
          ⟨by rwa [hs1.blocks_eq] at h2, by omega, hs1.trans hs2⟩
      · exact Io.Ok.pure ⟨hn, Nat.le_refl _, .refl bs⟩

theorem putNode_ok [DecidableEq Cid] (hr : bs.Reliable) {n : Node Cid} {c : Collapsed Cid}
    (hc : n.collapse = some c) :
    (putNode cc n).Ok bs fun cid bs' => cid = cc.cid (cc.ofNode c) ∧ bs'.Has cc (cc.ofNode c) ∧ bs.Le cc bs' := by
  rw [putNode, hc]
  exact put_ok hr _

/-- The slots of a link node, from slot `m` on, hold their parts of `f`. -/
def SlotsHold (cc : Codec Cid Block S) (blocks : Cid → Option Block) (h : Nat) (f : Nat → Option Cid) (m : Nat)
    (links : List (Option (Link Cid))) : Prop :=
  ∀ k < links.length, SlotHolds cc blocks (Holds cc blocks h) (links.getD k none) (slice f h (m + k))

theorem SlotsHold.cons {blocks : Cid → Option Block} {h m : Nat} {f : Nat → Option Cid}
    {o : Option (Link Cid)} {links : List (Option (Link Cid))} :
    SlotsHold cc blocks h f m (o :: links) ↔
      SlotHolds cc blocks (Holds cc blocks h) o (slice f h m) ∧ SlotsHold cc blocks h f (m + 1) links := by
  constructor
  · intro hs
    exact ⟨by simpa using hs 0 (by simp), fun k hk => by
      simpa [Nat.add_assoc, Nat.add_comm 1 k] using hs (k + 1) (by simp; omega)⟩
  · rintro ⟨h0, hs⟩ k hk
    cases k with
    | zero => simpa using h0
    | succ k => simpa [Nat.add_assoc, Nat.add_comm 1 k] using hs k (by simpa using hk)

theorem SlotsHold.mono {blocks blocks' : Cid → Option Block} (hg : Grows cc blocks blocks') {h m : Nat}
    {f : Nat → Option Cid} {links : List (Option (Link Cid))} (hs : SlotsHold cc blocks h f m links) :
    SlotsHold cc blocks' h f m links :=
  fun k hk => (hs k hk).imp hg fun _ _ => Holds.mono hg

/-- The loop of `Node::flush` stores every dirty child of the slots, leaving them clean and
holding their parts. -/
theorem flushLinks_ok [DecidableEq Cid] {h : Nat} {f : Nat → Option Cid}
    (ih : ∀ {n : Node Cid} {g : Nat → Option Cid} {bs : Blockstore Cid Block}, bs.Reliable →
      Holds cc bs.blocks h n g →
        (n.flush cc).Ok bs fun n' bs' => Holds cc bs'.blocks h n' g ∧ n'.Clean ∧ bs.Le cc bs') :
    ∀ (links : List (Option (Link Cid))) (m : Nat) {bs : Blockstore Cid Block}, bs.Reliable →
      SlotsHold cc bs.blocks h f m links →
      (flushLinks cc links).Ok bs fun ls bs' => ls.length = links.length ∧
        SlotsHold cc bs'.blocks h f m ls ∧ (∀ o ∈ ls, ∀ l ∈ o, (Link.cid? l).isSome) ∧
          bs.Le cc bs'
  | [], _, bs, _, _ => Io.Ok.pure ⟨rfl, nofun, nofun, .refl bs⟩
  | o :: links, m, bs, hr, hs => by
      obtain ⟨h0, hs⟩ := SlotsHold.cons.1 hs
      have rest : ∀ o', (∀ l ∈ o', (Link.cid? l).isSome) → ∀ {bs1 : Blockstore Cid Block}, bs.Le cc bs1 →
          SlotHolds cc bs1.blocks (Holds cc bs1.blocks h) o' (slice f h m) →
          ((o' :: ·) <$> flushLinks cc links).Ok bs1 fun ls bs' => ls.length = (o :: links).length ∧
            SlotsHold cc bs'.blocks h f m ls ∧ (∀ o ∈ ls, ∀ l ∈ o, (Link.cid? l).isSome) ∧
              bs.Le cc bs' := fun o' hc' bs1 hle1 h0' =>
        Io.Ok.map ((flushLinks_ok ih links (m + 1) (hr.of_le hle1) (hs.mono hle1.has)).mono
          fun ls bs' ⟨hlen, hsl, hcl, hle⟩ => ⟨by simp [hlen], SlotsHold.cons.2
            ⟨h0'.imp hle.has fun _ _ => Holds.mono hle.has, hsl⟩,
            fun o'' ho'' => (List.mem_cons.1 ho'').elim (· ▸ hc') (hcl o''), hle1.trans hle⟩)
      match o, h0 with
      | none, h0 => exact rest none nofun (.refl bs) h0
      | some (.cid c cache), h0 => exact rest _ (fun _ h => by cases h; rfl) (.refl bs) h0
      | some (.dirty n), ⟨hne, hn⟩ =>
          simp only [flushLinks]
          refine Io.Ok.bind ((ih hr hn).mono fun n' bs1 ⟨hn1, hc1, hle1⟩ => ?_)
          obtain ⟨cn, n0, hcol, hexp, hn0⟩ := hn1.expand_collapse hc1 (by
            cases h
            · exact .inl rfl
            · exact .inr hne)
          refine Io.Ok.bind ((putNode_ok (hr.of_le hle1) hcol).mono fun c bs2 ⟨hc, hhas, hle2⟩ => ?_)
          subst hc
          exact rest (some (.cid _ (some n'))) (fun _ h => by cases h; rfl) (hle1.trans hle2)
            ⟨hne, ⟨n0, ⟨_, rfl, hhas, by simp [cc.toNode_ofNode, hexp]⟩, hn0.mono hle2.has⟩,
              fun _ h => by cases h; exact hn1.mono hle2.has⟩

/-- `Node::flush` stores every dirty node below, and leaves a clean node holding the same
array, whatever the store held before. -/
theorem flush_ok [DecidableEq Cid] : ∀ {h : Nat} {n : Node Cid} {f : Nat → Option Cid}
    {bs : Blockstore Cid Block}, bs.Reliable → Holds cc bs.blocks h n f →
      (n.flush cc).Ok bs fun n' bs' => Holds cc bs'.blocks h n' f ∧ n'.Clean ∧ bs.Le cc bs'
  | 0, _, _, bs, _, ⟨vals, rfl, hlen, hf⟩ => by
      rw [Node.flush]
      exact Io.Ok.pure ⟨⟨vals, rfl, hlen, hf⟩, trivial, .refl bs⟩
  | h + 1, _, f, bs, hr, ⟨links, rfl, hlen, hout, hs⟩ => by
      rw [Node.flush]
      refine Io.Ok.map ((flushLinks_ok (h := h) (f := f) (fun hr hn => flush_ok hr hn) links 0 hr
        fun k hk => by simpa using hs k (hlen ▸ hk)).mono fun ls bs' ⟨hlen', hsl, hcl, hle⟩ =>
          ⟨⟨ls, rfl, by omega, hout, fun k hk => by simpa using hsl k (by omega)⟩, hcl, hle⟩)

/-- The values of the array `f` in index order, child by child as a node at height `h` holding
it lists them. -/
def valuesOf : Nat → (Nat → Option Cid) → List Cid
  | 0, f => (List.range 8).filterMap f
  | h + 1, f => (List.range 8).flatMap fun k => valuesOf h (slice f h k)

theorem valuesOf_none : ∀ h, valuesOf h (fun _ => none : Nat → Option Cid) = []
  | 0 => by simp [valuesOf]
  | h + 1 => by
      have : ∀ k, slice (fun _ => none : Nat → Option Cid) h k = fun _ => none :=
        fun _ => funext fun _ => by unfold slice; split <;> rfl
      simp [valuesOf, this, valuesOf_none h]

theorem filterMap_range_getD {α : Type} (l : List (Option α)) :
    (List.range l.length).filterMap (fun i => l.getD i none) = l.filterMap id := by
  have hmap : (List.range l.length).map (fun i => l.getD i none) = l :=
    List.ext_getElem (by simp) fun i h1 _ => by simp [List.getD_eq_getElem?_getD, by simpa using h1]
  calc (List.range l.length).filterMap (fun i => l.getD i none)
      = ((List.range l.length).map fun i => l.getD i none).filterMap id := by
        rw [List.filterMap_map]; rfl
    _ = l.filterMap id := by rw [hmap]

/-- The loop of `Node::for_each_while` over the slots lists the values under them in order. -/
theorem valuesLinks_ok {h : Nat} {f : Nat → Option Cid} {child : Node Cid → Io Cid Block (List Cid)}
    (ih : ∀ {n : Node Cid} {g : Nat → Option Cid} {bs : Blockstore Cid Block}, bs.Reliable →
      Holds cc bs.blocks h n g → (child n).Ok bs fun l bs' => l = valuesOf h g ∧ bs.Same bs') :
    ∀ (links : List (Option (Link Cid))) (m : Nat) {bs : Blockstore Cid Block}, bs.Reliable →
      SlotsHold cc bs.blocks h f m links →
      (valuesLinks cc child links).Ok bs fun l bs' =>
        l = (List.range' m links.length).flatMap (fun k => valuesOf h (slice f h k)) ∧ bs.Same bs'
  | [], _, bs, _, _ => Io.Ok.pure ⟨rfl, .refl bs⟩
  | none :: links, m, bs, hr, hs => by
      obtain ⟨h0, hs⟩ := SlotsHold.cons.1 hs
      refine (valuesLinks_ok ih links (m + 1) hr hs).mono fun l bs' ⟨hl, hs'⟩ => ⟨?_, hs'⟩
      rw [hl, List.length_cons, List.range'_succ, List.flatMap_cons, funext h0, valuesOf_none,
        List.nil_append]
  | some l :: links, m, bs, hr, hs => by
      obtain ⟨h0, hs⟩ := SlotsHold.cons.1 hs
      refine Io.Ok.bind ((Link.node_ok hr h0).mono fun n bs1 ⟨hn1, hs1⟩ => ?_)
      refine Io.Ok.bind ((ih (hr.of_same hs1) (hn1.of_same hs1)).mono fun vs bs2 ⟨hvs, hs2⟩ => ?_)
      refine Io.Ok.bind ((valuesLinks_ok (f := f) ih links (m + 1) ((hr.of_same hs1).of_same hs2)
        (by rw [hs2.blocks_eq, hs1.blocks_eq]; exact hs)).mono fun rest bs3 ⟨hrest, hs3⟩ => ?_)
      exact Io.Ok.pure ⟨by rw [hvs, hrest, List.length_cons, List.range'_succ, List.flatMap_cons],
        hs1.trans (hs2.trans hs3)⟩

/-- `Node::for_each_while` lists the values of the array the node holds, in index order. -/
theorem values_ok : ∀ {h : Nat} {n : Node Cid} {f : Nat → Option Cid} {bs : Blockstore Cid Block},
    bs.Reliable → Holds cc bs.blocks h n f → (n.values cc h).Ok bs fun l bs' => l = valuesOf h f ∧ bs.Same bs'
  | 0, _, f, bs, _, ⟨vals, rfl, hlen, hf⟩ => by
      refine Io.Ok.pure ⟨?_, .refl bs⟩
      rw [valuesOf, funext hf, ← hlen, filterMap_range_getD]
  | h + 1, _, f, bs, hr, ⟨links, rfl, hlen, hout, hs⟩ => by
      rw [Node.values]
      refine (valuesLinks_ok (h := h) (f := f) (fun hr hn => values_ok hr hn) links 0 hr
        fun k hk => by simpa using hs k (hlen ▸ hk)).mono fun l bs' ⟨hl, hs'⟩ => ⟨?_, hs'⟩
      rw [hl, hlen, valuesOf, List.range_eq_range']

theorem filterMap_range_getElem? {α : Type} (l : List α) :
    ∀ n, (List.range n).filterMap (fun i => l[i]?) = l.take n
  | 0 => rfl
  | n + 1 => by
      rw [List.range_succ, List.filterMap_append, filterMap_range_getElem? l n, List.take_succ]
      simp only [List.filterMap_cons, List.filterMap_nil]
      cases l[n]? <;> rfl

theorem flatMap_range_chunks {α : Type} (l : List α) (M : Nat) :
    ∀ n, (List.range n).flatMap (fun k => (l.drop (M * k)).take M) = l.take (M * n)
  | 0 => by simp
  | n + 1 => by
      rw [List.range_succ, List.flatMap_append, flatMap_range_chunks l M n, List.flatMap_singleton,
        Nat.mul_succ, List.take_add]

theorem slice_getElem? (ps : List Cid) (h k : Nat) :
    slice (fun i => ps[i]?) h k = fun j => ((ps.drop (nodesForHeight (h + 1) * k)).take
      (nodesForHeight (h + 1)))[j]? := by
  funext j
  rw [slice, List.getElem?_take, List.getElem?_drop]

/-- A node holding a stack lists its values as the stack. -/
theorem valuesOf_getElem? : ∀ (h : Nat) (ps : List Cid), ps.length ≤ nodesForHeight (h + 1) →
    valuesOf h (fun i => ps[i]?) = ps
  | 0, ps, hps => by
      rw [valuesOf, filterMap_range_getElem?, List.take_of_length_le (by simpa using hps)]
  | h + 1, ps, hps => by
      simp only [valuesOf, slice_getElem?]
      rw [show (fun k => valuesOf h fun j => ((ps.drop (nodesForHeight (h + 1) * k)).take
          (nodesForHeight (h + 1)))[j]?) = fun k => (ps.drop (nodesForHeight (h + 1) * k)).take
          (nodesForHeight (h + 1)) from funext fun k => valuesOf_getElem? h _ (List.length_take_le _ _),
        flatMap_range_chunks, List.take_of_length_le]
      have := nodesForHeight_succ_le (h + 1)
      rw [Nat.mul_comm]
      omega

end Ops

end Node

namespace Amt

variable (cc : Codec Cid Block S) (blocks : Cid → Option Block)

/-- The AMT `a` holds the stack `ps` at the indices `0 .. ps.length - 1`: the count is its
length, the root holds it at the recorded height, which passes the check of `load`, and the
root is a leaf when the stack is empty. -/
structure Holds (a : Amt Cid) (ps : List Cid) : Prop where
  count_eq : a.count = ps.length
  root : Node.Holds cc blocks a.height a.root fun i => ps[i]?
  height_le : a.height ≤ maxHeight
  nonempty : 0 < a.height → ps ≠ []

/-- The root block under `c` is stored under its CID, and loads as an AMT holding `ps`. -/
def Stored (c : Cid) (ps : List Cid) : Prop :=
  ∃ b, c = cc.cid b ∧ blocks c = some b ∧ ∃ a, decode cc b = some a ∧ a.Holds cc blocks ps

variable {cc blocks} {blocks' : Cid → Option Block} {bs : Blockstore Cid Block}
  {a : Amt Cid} {ps : List Cid}

theorem Holds.mono (hg : Grows cc blocks blocks') (h : a.Holds cc blocks ps) : a.Holds cc blocks' ps :=
  ⟨h.count_eq, h.root.mono hg, h.height_le, h.nonempty⟩

theorem Stored.mono (hg : Grows cc blocks blocks') {c : Cid} :
    Stored cc blocks c ps → Stored cc blocks' c ps := by
  rintro ⟨b, rfl, hb, a, hd, ha⟩
  exact ⟨b, rfl, hg b hb, a, hd, ha.mono hg⟩

theorem new_holds : (new : Amt Cid).Holds cc blocks [] :=
  ⟨rfl, (Node.Holds.empty 0 : Node.Holds cc blocks 0 _ _), Nat.zero_le _, fun h => absurd h (Nat.lt_irrefl 0)⟩

theorem Holds.length_le (h : a.Holds cc blocks ps) : ps.length ≤ nodesForHeight (a.height + 1) := by
  by_contra hlt
  have := h.root.eq_none (i := nodesForHeight (a.height + 1)) (Nat.le_refl _)
  rw [List.getElem?_eq_getElem (by omega)] at this
  exact Option.some_ne_none _ this

theorem Holds.length_le_maxIndex (h : a.Holds cc blocks ps) : ps.length ≤ maxIndex + 1 :=
  Nat.le_trans h.length_le (nodesForHeight_le_maxIndex _)

theorem Holds.index_le (h : a.Holds cc blocks ps) {i : Nat} (hi : i < ps.length) : i ≤ maxIndex := by
  have := h.length_le_maxIndex
  omega

theorem update_getElem?_some (ps : List Cid) (v : Cid) :
    Function.update (fun i => ps[i]?) ps.length (some v) = fun i => (ps ++ [v])[i]? := by
  funext i
  rcases Nat.lt_trichotomy i ps.length with hi | rfl | hi
  · rw [Function.update_noteq (by omega), List.getElem?_append_left hi]
  · simp
  · have h1 : ps[i]? = none := List.getElem?_eq_none (by omega)
    have h2 : (ps ++ [v])[i]? = none := List.getElem?_eq_none (by simp; omega)
    rw [Function.update_noteq (by omega)]
    simp only [h1, h2]

theorem update_getElem?_none (ps : List Cid) (v : Cid) :
    Function.update (fun i => (ps ++ [v])[i]?) ps.length none = fun i => ps[i]? := by
  funext i
  rcases Nat.lt_trichotomy i ps.length with hi | rfl | hi
  · rw [Function.update_noteq (by omega), List.getElem?_append_left hi]
  · simp
  · have h1 : ps[i]? = none := List.getElem?_eq_none (by omega)
    have h2 : (ps ++ [v])[i]? = none := List.getElem?_eq_none (by simp; omega)
    rw [Function.update_noteq (by omega)]
    simp only [h1, h2]

/-- `Amt::get` reads the stack, and leaves an AMT holding it. -/
theorem get_ok (hr : bs.Reliable) (h : a.Holds cc bs.blocks ps) {i : Nat} (hi : i ≤ maxIndex) :
    (a.get cc i).Ok bs fun r bs' => r.1 = ps[i]? ∧ r.2.Holds cc bs.blocks ps ∧ bs.Same bs' := by
  simp only [Amt.get, if_neg (Nat.not_lt.2 hi), Io.pure_bind]
  split
  · exact Io.Ok.pure ⟨(h.root.eq_none ‹_›).symm, h, .refl bs⟩
  · exact Io.Ok.bind ((Node.get_ok hr h.root i).mono fun r bs' ⟨hv, hn, hs⟩ =>
      Io.Ok.pure ⟨hv, ⟨h.count_eq, hn, h.height_le, h.nonempty⟩, hs⟩)

/-- The loop growing the tree keeps the array the root holds, and ends with index `i` under the
root, below height 22. -/
theorem grow_holds {i : Nat} (hi : i ≤ maxIndex) {f : Nat → Option Cid} :
    ∀ (fuel : Nat) (a : Amt Cid), 22 ≤ a.height + fuel → Node.Holds cc blocks a.height a.root f →
      a.height ≤ maxHeight → Node.Holds cc blocks (grow i fuel a).height (grow i fuel a).root f ∧
        i < nodesForHeight ((grow i fuel a).height + 1) ∧ (grow i fuel a).count = a.count ∧
          (grow i fuel a).height ≤ maxHeight
  | 0, a, hfuel, hn, hh => by
      rw [grow]
      exact ⟨hn, Nat.lt_of_le_of_lt hi (maxIndex_lt_nodesForHeight (by omega)), rfl, hh⟩
  | fuel + 1, a, hfuel, hn, hh => by
      rw [grow]
      split
      · rename_i hle
        have h22 := lt_of_nodesForHeight_le hi hle
        refine grow_holds hi fuel _ (by dsimp only; omega) ?_ (by dsimp only [maxHeight]; omega)
        have hout : ∀ j, nodesForHeight (a.height + 2) ≤ j → f j = none := fun j hj =>
          hn.eq_none (Nat.le_trans (nodesForHeight_le_succ _) hj)
        have hslice : ∀ k, 0 < k → ∀ j, slice f a.height k j = none := fun k hk j => by
          unfold slice
          split
          · exact hn.eq_none (Nat.le_trans (Nat.le_mul_of_pos_right _ hk) (Nat.le_add_right _ _))
          · rfl
        split
        · rename_i hemp
          rw [funext (hn.isEmpty_iff.1 hemp)]
          exact Node.Holds.empty (a.height + 1)
        · rename_i hemp
          have hf0 : slice f a.height 0 = f := funext fun j => by
            unfold slice
            split
            · rw [Nat.mul_zero, Nat.zero_add]
            · exact (hn.eq_none (by omega)).symm
          refine ⟨_, rfl, rfl, hout, fun k hk => ?_⟩
          cases k with
          | zero =>
              rw [hf0]
              exact ⟨not_forall.1 fun h => hemp (hn.isEmpty_iff.2 h), hn⟩
          | succ k =>
              have : (some (Link.dirty a.root) :: List.replicate 7 none).getD (k + 1) none = none := by
                rw [List.getD_eq_getElem?_getD, List.getElem?_cons_succ, List.getElem?_replicate]
                split <;> rfl
              rw [this]
              exact hslice (k + 1) (Nat.succ_pos k)
      · exact ⟨hn, Nat.lt_of_not_le ‹_›, rfl, hh⟩

/-- `Amt::set` at the index past the stack pushes onto it. -/
theorem set_ok (hr : bs.Reliable) (h : a.Holds cc bs.blocks ps) (hps : ps.length ≤ maxIndex) (v : Cid) :
    (a.set cc ps.length v).Ok bs fun a' bs' => a'.Holds cc bs.blocks (ps ++ [v]) ∧ bs.Same bs' := by
  obtain ⟨hg, hi, hc, hh⟩ := grow_holds hps 22 a (by omega) h.root h.height_le
  simp only [Amt.set, if_neg (Nat.not_lt.2 hps), Io.pure_bind]
  refine Io.Ok.bind ((Node.set_ok hr hg hi v).mono fun ⟨old, root⟩ bs1 ⟨hold, hn1, hs1⟩ => ?_)
  have hnone : old = none := hold.trans (List.getElem?_eq_none (Nat.le_refl _))
  subst hnone
  have hadd : ps.length + 1 < 2 ^ 64 := by simp [maxIndex] at hps; omega
  simp only [Option.isNone_none, if_true, hc, h.count_eq]
  refine Io.Ok.bind (Io.Ok.lift (checkedAdd_of_lt hadd) (Io.Ok.pure ⟨⟨by simp, ?_, hh, fun _ => by simp⟩, hs1⟩))
  rwa [← update_getElem?_some]

/-- `Amt::delete` at the last index of the stack pops it. -/
theorem delete_ok (hr : bs.Reliable) {v : Cid} (h : a.Holds cc bs.blocks (ps ++ [v])) :
    (a.delete cc ps.length).Ok bs fun r bs' => r.1 = some v ∧ r.2.Holds cc bs.blocks ps ∧ bs.Same bs' := by
  have hlen := h.length_le
  have hps : ps.length ≤ maxIndex := h.index_le (by simp)
  simp only [List.length_append, List.length_singleton] at hlen
  simp only [Amt.delete, if_neg (Nat.not_lt.2 hps), if_neg (Nat.not_le.2 (Nat.lt_of_succ_le hlen)),
    Io.pure_bind]
  refine Io.Ok.bind ((Node.delete_ok hr h.root (Nat.lt_of_succ_le hlen)).mono
    fun ⟨old, root⟩ bs1 ⟨hold, hn1, hs1⟩ => ?_)
  have hv : old = some v := by simpa using hold
  subst hv
  rw [update_getElem?_none] at hn1
  simp only [Option.isNone_some, Bool.false_eq_true, if_false, Io.pure_bind, h.count_eq,
    List.length_append, List.length_singleton]
  refine Io.Ok.bind (Io.Ok.lift (checkedSub_of_le (Nat.le_add_left 1 _)) ?_)
  rw [Nat.add_sub_cancel]
  split
  · rename_i hemp
    have hnil : ps = [] := List.eq_nil_of_length_eq_zero (by
      by_contra hne
      have := hn1.isEmpty_iff.1 hemp 0
      rw [List.getElem?_eq_getElem (by omega)] at this
      exact Option.some_ne_none _ this)
    subst hnil
    exact Io.Ok.pure ⟨rfl, new_holds, hs1⟩
  · rename_i hemp
    have hne : ∃ i, ps[i]? ≠ none := not_forall.1 fun h' => hemp (hn1.isEmpty_iff.2 h')
    refine Io.Ok.bind ((Node.collapseRoot_ok (hr.of_same hs1) (hn1.of_same hs1) hne).mono
      fun ⟨height, root'⟩ bs2 ⟨hn2, hle, hs2⟩ => ?_)
    rw [hs1.blocks_eq] at hn2
    refine Io.Ok.pure ⟨rfl, ⟨rfl, hn2, Nat.le_trans hle h.height_le, fun _ hnil => ?_⟩, hs1.trans hs2⟩
    obtain ⟨i, hi⟩ := hne
    simp [hnil] at hi

/-- `Amt::flush` stores the AMT: its handle names a root block that loads as an AMT holding the
stack, and the AMT left in memory still holds it. -/
theorem flush_ok [DecidableEq Cid] (hr : bs.Reliable) (h : a.Holds cc bs.blocks ps) :
    (a.flush cc).Ok bs fun r bs' =>
      r.2.Holds cc bs'.blocks ps ∧ Stored cc bs'.blocks r.1 ps ∧ bs.Le cc bs' := by
  refine Io.Ok.bind ((Node.flush_ok hr h.root).mono fun root bs1 ⟨hn1, hc1, hle1⟩ => ?_)
  obtain ⟨cn, n0, hcol, hexp, hn0⟩ := hn1.expand_collapse hc1 (by
    rcases Nat.eq_zero_or_pos a.height with h0 | h0
    · exact .inl h0
    · obtain ⟨p, ps', rfl⟩ := List.exists_cons_of_ne_nil (h.nonempty h0)
      exact .inr ⟨0, by simp⟩)
  simp only [hcol]
  refine Io.Ok.bind ((put_ok (hr.of_le hle1) _).mono fun c bs2 ⟨hc, hhas, hle2⟩ => ?_)
  subst hc
  refine Io.Ok.pure ⟨⟨h.count_eq, hn1.mono hle2.has, h.height_le, h.nonempty⟩,
    ⟨_, rfl, hhas, ⟨a.height, a.count, n0⟩, ?_, ⟨h.count_eq, hn0.mono hle2.has, h.height_le, h.nonempty⟩⟩,
    hle1.trans hle2⟩
  simp [decode, cc.toRoot_ofRoot, hexp]

/-- A decoded root has its children unloaded. -/
theorem decode_fresh {b : Block} (h : decode cc b = some a) : a.root.Fresh := by
  obtain ⟨⟨height, count, n⟩, -, hn⟩ := Option.bind_eq_some.1 h
  obtain ⟨n', hn', rfl⟩ := Option.map_eq_some'.1 hn
  exact Node.expand_fresh hn'

/-- `Amt::load` of a stored handle gives an AMT holding the stack. -/
theorem load_ok (hr : bs.Reliable) {c : Cid} (h : Stored cc bs.blocks c ps) :
    (load cc c).Ok bs fun a bs' => a.Holds cc bs.blocks ps ∧ bs.Same bs' := by
  obtain ⟨b, rfl, hb, a, hd, ha⟩ := h
  refine Io.Ok.bind ((getCbor_ok hr hb hd).mono fun o bs' ho => ?_)
  rw [ho.1]
  dsimp only
  rw [if_neg (Nat.not_lt.2 ha.height_le)]
  exact Io.Ok.pure ⟨ha, ho.2⟩

/-- `Amt::for_each` lists the stack. -/
theorem values_ok (hr : bs.Reliable) (h : a.Holds cc bs.blocks ps) :
    (a.values cc).Ok bs fun l bs' => l = ps ∧ bs.Same bs' :=
  (Node.values_ok hr h.root).mono fun _ _ hl =>
    ⟨hl.1.trans (Node.valuesOf_getElem? _ _ h.length_le), hl.2⟩

end Amt

end Fendermint
