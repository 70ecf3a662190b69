import Fendermint.Invariant

namespace Fendermint.Binding

open Ipld Bits Shared Mmr Mmr.Tree SharedSpec Invariant

variable {Cid Block S : Type} {cc : Codec Cid Block S}

theorem cid_ne_default (t : Mmr.Tree S) : t.cid cc ≠ cc.default := by
  cases t <;> exact cc.cid_ne_default _

theorem ofValue_injective : Function.Injective cc.ofValue := fun v w h => by
  have := cc.toValue_ofValue v
  rw [h, cc.toValue_ofValue] at this
  exact (Option.some.inj this).symm

theorem ofPair_inj {l r l' r' : Cid} (h : cc.ofPair l r = cc.ofPair l' r') : l = l' ∧ r = r' := by
  have := cc.toPair_ofPair l r
  rw [h, cc.toPair_ofPair] at this
  simpa [eq_comm] using this

/-- Where no leaf of either tree is a pair block, the CID of a tree determines the tree. -/
theorem cid_injective : ∀ {t u : Mmr.Tree S},
    (∀ v ∈ t.leaves ++ u.leaves, ∀ l r, cc.ofValue v ≠ cc.ofPair l r) → t.cid cc = u.cid cc → t = u
  | leaf _, leaf _, _, h => congrArg leaf (ofValue_injective (cc.cid_injective h))
  | leaf v, node _ _, hsep, h => absurd (cc.cid_injective h) (hsep v (by simp [leaves]) _ _)
  | node _ _, leaf v, hsep, h => absurd (cc.cid_injective h).symm (hsep v (by simp [leaves]) _ _)
  | node _ _, node _ _, hsep, h => by
      obtain ⟨hl, hr⟩ := ofPair_inj (cc.cid_injective h)
      rw [cid_injective (fun v hv => hsep v (by simp [leaves] at hv ⊢; tauto)) hl,
        cid_injective (fun v hv => hsep v (by simp [leaves] at hv ⊢; tauto)) hr]

variable [DecidableEq Cid] {Address : Type} {bs : Blockstore Cid Block}

end Fendermint.Binding
