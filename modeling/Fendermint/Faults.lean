import Fendermint.Shared

namespace Fendermint.Faults

open Ipld Bits Shared

variable {Cid Block S α β : Type}

/-- `bs` with every call succeeding: the same blocks and clock, no fault. -/
def healed (bs : Blockstore Cid Block) : Blockstore Cid Block := { bs with fault := fun _ => false }

@[simp] theorem healed_blocks (bs : Blockstore Cid Block) : (healed bs).blocks = bs.blocks := rfl

theorem healed_reliable (bs : Blockstore Cid Block) : (healed bs).Reliable := fun _ => rfl

/-- An `Ok` run of `m` on any store is its run on the healed store: no failing call can make
`m` return a value, or leave blocks, that it would not on a store that fails no call. -/
def Transparent (m : Io Cid Block α) : Prop :=
  ∀ bs a bs', m.run bs = (.ok a, bs') → m.run (healed bs) = (.ok a, healed bs')

/-- Every run of `m`, whatever it returns, keeps every block the store held. -/
def Keeps (cc : Codec Cid Block S) (m : Io Cid Block α) : Prop :=
  ∀ bs : Blockstore Cid Block, bs.Le cc (m.run bs).2

/-- Every run of `m`, whatever it returns, writes nothing. -/
def Reads (m : Io Cid Block α) : Prop := ∀ bs : Blockstore Cid Block, bs.Same (m.run bs).2

theorem run_bind_ok {m : Io Cid Block α} {f : α → Io Cid Block β} {bs bs' : Blockstore Cid Block}
    {b : β} (h : (m >>= f).run bs = (.ok b, bs')) :
    ∃ a bs1, m.run bs = (.ok a, bs1) ∧ (f a).run bs1 = (.ok b, bs') := by
  rw [Io.run_bind] at h
  rcases hm : m.run bs with ⟨_ | a, bs1⟩ <;> rw [hm] at h
  · cases h
  · exact ⟨a, bs1, rfl, h⟩

theorem run_bind_snd (m : Io Cid Block α) (f : α → Io Cid Block β) (bs : Blockstore Cid Block) :
    ((m >>= f).run bs).2 = match m.run bs with
      | (.ok a, bs1) => ((f a).run bs1).2
      | (.error _, bs1) => bs1 := by
  rw [Io.run_bind]
  rcases m.run bs with ⟨_ | _, _⟩ <;> rfl

namespace Transparent

theorem pure (a : α) : Transparent (Pure.pure a : Io Cid Block α) := by
  rintro bs _ _ ⟨⟩
  rfl

theorem lift (x : Except (Abort Cid) α) : Transparent (Io.lift x : Io Cid Block α) := by
  rintro bs a _ h
  rw [Io.run_lift, Prod.mk.injEq] at h
  rw [Io.run_lift, h.1, ← h.2]

theorem throw (e : Abort Cid) : Transparent (MonadExcept.throw e : Io Cid Block α) := by
  rintro _ _ _ ⟨⟩

theorem bind {m : Io Cid Block α} {f : α → Io Cid Block β} (hm : Transparent m)
    (hf : ∀ a, Transparent (f a)) : Transparent (m >>= f) := fun bs b bs' h => by
  obtain ⟨a, bs1, h1, h2⟩ := run_bind_ok h
  rw [Io.run_bind, hm bs a bs1 h1]
  exact hf a bs1 b bs' h2

/-- What a call is proved to do on a store that fails no call, it does whenever it returns `Ok`. -/
theorem post {m : Io Cid Block α} (hm : Transparent m) {bs bs' : Blockstore Cid Block} {a : α}
    {p : α → Blockstore Cid Block → Prop} (hrun : m.run bs = (.ok a, bs')) (hok : m.Ok (healed bs) p) :
    p a (healed bs') := by
  obtain ⟨_, _, h, hp⟩ := hok
  rw [hm bs a bs' hrun, Prod.mk.injEq, Except.ok.injEq] at h
  rwa [h.1, h.2]

theorem map {m : Io Cid Block α} (hm : Transparent m) (f : α → β) : Transparent (f <$> m) :=
  fun bs b bs' h => by
    rw [Io.run_map] at h ⊢
    rcases h1 : m.run bs with ⟨_ | a, bs1⟩ <;> rw [h1] at h
    · cases h
    · rw [hm bs a bs1 h1]
      cases h
      rfl

end Transparent

namespace Reads

theorem pure (a : α) : Reads (Pure.pure a : Io Cid Block α) := fun bs => .refl bs

theorem lift (x : Except (Abort Cid) α) : Reads (Io.lift x : Io Cid Block α) := fun bs => .refl bs

theorem throw (e : Abort Cid) : Reads (MonadExcept.throw e : Io Cid Block α) := fun bs => .refl bs

theorem bind {m : Io Cid Block α} {f : α → Io Cid Block β} (hm : Reads m) (hf : ∀ a, Reads (f a)) :
    Reads (m >>= f) := fun bs => by
  rw [run_bind_snd]
  rcases h : m.run bs with ⟨_ | a, bs1⟩
  · simpa [h] using hm bs
  · exact (by simpa [h] using hm bs : bs.Same bs1).trans (hf a bs1)

theorem map {m : Io Cid Block α} (hm : Reads m) (f : α → β) : Reads (f <$> m) := fun bs => by
  rw [Io.run_map]
  rcases h : m.run bs with ⟨_ | a, bs1⟩ <;> simpa [h] using hm bs

theorem tryCatch {m : Io Cid Block α} {h : Abort Cid → Io Cid Block α} (hm : Reads m)
    (hh : ∀ e, Reads (h e)) : Reads (MonadExcept.tryCatch m h) := fun bs => by
  rw [Io.run_tryCatch]
  rcases hr : m.run bs with ⟨_ | a, bs1⟩
  · exact (by simpa [hr] using hm bs : bs.Same bs1).trans (hh _ bs1)
  · simpa [hr] using hm bs

theorem keeps {cc : Codec Cid Block S} {m : Io Cid Block α} (hm : Reads m) : Keeps cc m :=
  fun bs => (hm bs).le

end Reads

namespace Keeps

variable {cc : Codec Cid Block S}

theorem bind {m : Io Cid Block α} {f : α → Io Cid Block β} (hm : Keeps cc m)
    (hf : ∀ a, Keeps cc (f a)) : Keeps cc (m >>= f) := fun bs => by
  rw [run_bind_snd]
  rcases h : m.run bs with ⟨_ | a, bs1⟩
  · simpa [h] using hm bs
  · exact (by simpa [h] using hm bs : bs.Le cc bs1).trans (hf a bs1)

end Keeps

/-- A call that may write: `Ok` only as on the healed store, and every block kept. -/
structure Safe (cc : Codec Cid Block S) (m : Io Cid Block α) : Prop where
  transparent : Transparent m
  keeps : Keeps cc m

/-- A call that only reads: `Ok` only as on the healed store, and no block written. -/
structure ReadOnly (m : Io Cid Block α) : Prop where
  transparent : Transparent m
  reads : Reads m

namespace ReadOnly

theorem safe {cc : Codec Cid Block S} {m : Io Cid Block α} (h : ReadOnly m) : Safe cc m :=
  ⟨h.transparent, h.reads.keeps⟩

theorem pure (a : α) : ReadOnly (Pure.pure a : Io Cid Block α) := ⟨.pure a, .pure a⟩

theorem lift (x : Except (Abort Cid) α) : ReadOnly (Io.lift x : Io Cid Block α) := ⟨.lift x, .lift x⟩

theorem throw (e : Abort Cid) : ReadOnly (MonadExcept.throw e : Io Cid Block α) := ⟨.throw e, .throw e⟩

theorem bind {m : Io Cid Block α} {f : α → Io Cid Block β} (hm : ReadOnly m) (hf : ∀ a, ReadOnly (f a)) :
    ReadOnly (m >>= f) :=
  ⟨hm.transparent.bind fun a => (hf a).transparent, hm.reads.bind fun a => (hf a).reads⟩

theorem map {m : Io Cid Block α} (hm : ReadOnly m) (f : α → β) : ReadOnly (f <$> m) :=
  ⟨hm.transparent.map f, hm.reads.map f⟩

theorem ite (c : Prop) [Decidable c] {t e : Io Cid Block α} (ht : ReadOnly t) (he : ReadOnly e) :
    ReadOnly (if c then t else e) := by
  split
  · exact ht
  · exact he

end ReadOnly

namespace Safe

variable {cc : Codec Cid Block S}

theorem bind {m : Io Cid Block α} {f : α → Io Cid Block β} (hm : Safe cc m) (hf : ∀ a, Safe cc (f a)) :
    Safe cc (m >>= f) :=
  ⟨hm.transparent.bind fun a => (hf a).transparent, hm.keeps.bind fun a => (hf a).keeps⟩

theorem map {m : Io Cid Block α} (hm : Safe cc m) (f : α → β) : Safe cc (f <$> m) :=
  hm.bind fun a => (ReadOnly.pure (f a)).safe

end Safe

theorem tick_readOnly : ReadOnly (tick : Io Cid Block Unit) := by
  refine ⟨fun bs _ bs' h => ?_, fun _ => ⟨rfl, rfl⟩⟩
  simp only [tick] at h ⊢
  split at h
  · cases h
  · rw [Prod.mk.injEq] at h
    rw [← h.2]
    rfl

theorem put_safe [DecidableEq Cid] (cc : Codec Cid Block S) (b : Block) : Safe cc (put cc b) :=
  tick_readOnly.safe.bind fun _ => ⟨by rintro bs _ _ ⟨⟩; rfl, fun bs => ⟨rfl, fun b' hb' => by
    simp only [Blockstore.Has, Function.update_apply]
    split
    · rename_i he
      rw [cc.cid_injective he]
    · exact hb'⟩⟩

theorem getBlock_readOnly (c : Cid) : ReadOnly (getBlock c : Io Cid Block (Option Block)) :=
  tick_readOnly.bind fun _ => ⟨by rintro bs _ _ ⟨⟩; rfl, fun _ => .refl _⟩

theorem getCbor_readOnly {T : Type} (decode : Block → Option T) (c : Cid) :
    ReadOnly (getCbor decode c) :=
  (getBlock_readOnly c).bind fun
    | none => .pure _
    | some b => by
        dsimp only
        split
        · exact .pure _
        · exact .throw _

section Amt

variable (cc : Codec Cid Block S)

theorem loadNode_readOnly (c : Cid) : ReadOnly (loadNode cc c) :=
  (getCbor_readOnly _ c).bind fun
    | some _ => .pure _
    | none => .throw _

theorem Link.node_readOnly : ∀ l : Link Cid, ReadOnly (l.node cc : Io Cid Block (Node Cid))
  | .dirty _ => .pure _
  | .cid _ (some _) => .pure _
  | .cid c none => loadNode_readOnly cc c

namespace Node

theorem get_readOnly : ∀ (h : Nat) (n : Node Cid) (i : Nat), ReadOnly (n.get cc h i)
  | _, .leaf _, _ => by
      rw [Node.get]
      exact .pure _
  | 0, .link _, _ => by
      simp only [Node.get]
      split
      · exact .pure _
      · exact .throw _
  | h + 1, .link _, _ => by
      simp only [Node.get]
      split
      · exact .pure _
      · exact (Link.node_readOnly cc _).bind fun n =>
          (get_readOnly h n _).bind fun ⟨_, _⟩ => .pure _

theorem set_readOnly : ∀ (h : Nat) (n : Node Cid) (i : Nat) (v : Cid), ReadOnly (n.set cc h i v)
  | 0, .leaf _, _, _ => by
      simp only [Node.set]
      split
      · exact .pure _
      · exact .throw _
  | 0, .link _, _, _ => .throw _
  | _ + 1, .leaf _, _, _ => .throw _
  | h + 1, .link _, _, _ => by
      simp only [Node.set]
      split
      · refine ((?_ : ReadOnly (Node.setChild cc h _)).bind fun n =>
          (set_readOnly h n _ _).bind fun ⟨_, _⟩ => .pure _)
        unfold Node.setChild
        split
        · exact Link.node_readOnly cc _
        · exact .pure _
      · exact .throw _

theorem delete_readOnly : ∀ (h : Nat) (n : Node Cid) (i : Nat), ReadOnly (n.delete cc h i)
  | _, .leaf _, _ => by
      rw [Node.delete]
      exact .pure _
  | 0, .link _, _ => by
      simp only [Node.delete]
      split
      · split
        · exact .pure _
        · exact .throw _
      · exact .throw _
  | h + 1, .link _, _ => by
      simp only [Node.delete]
      split
      · split
        · exact .pure _
        · exact (Link.node_readOnly cc _).bind fun n => (delete_readOnly h n _).bind fun
            | ⟨none, _⟩ => .pure _
            | ⟨some _, _⟩ => .pure _
      · exact .throw _

theorem collapseRoot_readOnly : ∀ (h : Nat) (n : Node Cid), ReadOnly (n.collapseRoot cc h)
  | 0, _ => .pure _
  | _ + 1, .leaf _ => .throw _
  | h + 1, .link _ => by
      simp only [Node.collapseRoot]
      split
      · split
        · exact (Link.node_readOnly cc _).bind fun n => collapseRoot_readOnly h n
        · exact .throw _
      · exact .pure _

theorem valuesLinks_readOnly {child : Node Cid → Io Cid Block (List Cid)}
    (hc : ∀ n, ReadOnly (child n)) : ∀ links : List (Option (Link Cid)),
      ReadOnly (Node.valuesLinks cc child links)
  | [] => .pure _
  | none :: links => valuesLinks_readOnly hc links
  | some _ :: links => (Link.node_readOnly cc _).bind fun n => (hc n).bind fun _ =>
      (valuesLinks_readOnly hc links).bind fun _ => .pure _

theorem values_readOnly : ∀ (h : Nat) (n : Node Cid), ReadOnly (n.values cc h)
  | _, .leaf _ => by
      rw [Node.values]
      exact .pure _
  | 0, .link _ => by
      simp only [Node.values]
      split
      · exact .pure _
      · exact .throw _
  | h + 1, .link links => valuesLinks_readOnly cc (values_readOnly h) links

variable [DecidableEq Cid]

theorem putNode_safe (n : Node Cid) : Safe cc (Node.putNode cc n) := by
  unfold Node.putNode
  split
  · exact put_safe cc _
  · exact (ReadOnly.throw _).safe

mutual
theorem flush_safe : ∀ n : Node Cid, Safe cc (n.flush cc)
  | .leaf _ => (ReadOnly.pure _).safe
  | .link links => by
      rw [Node.flush]
      exact (flushLinks_safe links).map _

theorem flushLinks_safe : ∀ links : List (Option (Link Cid)), Safe cc (Node.flushLinks cc links)
  | [] => (ReadOnly.pure _).safe
  | none :: links => (flushLinks_safe links).map _
  | some (.cid _ _) :: links => (flushLinks_safe links).map _
  | some (.dirty n) :: links => by
      rw [Node.flushLinks]
      exact (flush_safe n).bind fun _ => (putNode_safe cc _).bind fun _ => (flushLinks_safe links).map _
end

end Node

namespace Amt

variable (a : Amt Cid)

theorem get_readOnly (i : Nat) : ReadOnly (a.get cc i) := by
  dsimp only [Amt.get]
  refine .ite _ ((ReadOnly.throw _).bind fun _ => ?_) ((ReadOnly.pure _).bind fun _ => ?_) <;>
    exact .ite _ (.pure _) ((Node.get_readOnly cc _ _ _).bind fun ⟨_, _⟩ => .pure _)

theorem set_readOnly (i : Nat) (v : Cid) : ReadOnly (a.set cc i v) := by
  dsimp only [Amt.set]
  refine .ite _ ((ReadOnly.throw _).bind fun _ => ?_) ((ReadOnly.pure _).bind fun _ => ?_) <;>
    exact (Node.set_readOnly cc _ _ _ _).bind fun ⟨_, _⟩ =>
      .ite _ ((ReadOnly.lift _).bind fun _ => .pure _) ((ReadOnly.pure _).bind fun _ => .pure _)

theorem delete_readOnly (i : Nat) : ReadOnly (a.delete cc i) := by
  dsimp only [Amt.delete]
  refine .ite _ ((ReadOnly.throw _).bind fun _ => ?_) ((ReadOnly.pure _).bind fun _ => ?_) <;>
    exact .ite _ (.pure _) ((Node.delete_readOnly cc _ _ _).bind fun ⟨_, _⟩ =>
      .ite _ (.pure _) ((ReadOnly.pure _).bind fun _ => (ReadOnly.lift _).bind fun _ =>
        .ite _ (.pure _) ((ReadOnly.pure _).bind fun _ =>
          (Node.collapseRoot_readOnly cc _ _).bind fun ⟨_, _⟩ => .pure _)))

theorem values_readOnly : ReadOnly (a.values cc) := Node.values_readOnly cc _ _

theorem flush_safe [DecidableEq Cid] : Safe cc (a.flush cc) :=
  (Node.flush_safe cc _).bind fun root => by
    split
    · exact (ReadOnly.throw _).safe
    · exact (put_safe cc _).bind fun _ => (ReadOnly.pure _).safe

theorem load_readOnly (c : Cid) : ReadOnly (Amt.load cc c) :=
  (getCbor_readOnly _ c).bind fun
    | none => .throw _
    | some _ => .ite _ (.throw _) (.pure _)

end Amt

end Amt

section Write

variable [DecidableEq Cid] (cc : Codec Cid Block S)

theorem hashAndPutPair_safe (left right : Option Cid) : Safe cc (hashAndPutPair cc left right) := by
  unfold hashAndPutPair
  split
  · exact put_safe cc _
  · exact ReadOnly.safe (.throw _)

theorem mergePeaks_safe : ∀ (k : Nat) (peaks : Amt Cid), Safe cc (mergePeaks cc k peaks)
  | 0, _ => (ReadOnly.pure _).safe
  | k + 1, _ =>
      (ReadOnly.lift _).safe.bind fun _ => (Amt.delete_readOnly cc _ _).safe.bind fun ⟨right, _⟩ =>
        (ReadOnly.lift _).safe.bind fun _ => (Amt.delete_readOnly cc _ _).safe.bind fun ⟨left, _⟩ =>
          (hashAndPutPair_safe cc left right).bind fun _ => (Amt.set_readOnly cc _ _ _).safe.bind
            fun _ => mergePeaks_safe k _

theorem push_safe (leafCount : Nat) (peaks : Amt Cid) (obj : S) :
    Safe cc (Shared.push cc leafCount peaks obj) :=
  (put_safe cc _).bind fun _ => (Amt.set_readOnly cc _ _ _).safe.bind fun _ =>
    (mergePeaks_safe cc _ _).bind fun _ => Amt.flush_safe cc _

end Write

section Read

variable (cc : Codec Cid Block S)

theorem bagLoop_readOnly (peaksCount : Nat) :
    ∀ (is : List Nat) (peaks : Amt Cid) (root : Cid), ReadOnly (bagLoop cc peaksCount is peaks root)
  | [], _, _ => .pure _
  | _ :: is, _, _ =>
      (ReadOnly.lift _).bind fun _ => (ReadOnly.lift _).bind fun _ => (Amt.get_readOnly cc _ _).bind
        fun ⟨_, _⟩ => (ReadOnly.lift _).bind fun _ => bagLoop_readOnly peaksCount is _ _

theorem bagPeaks_readOnly (peaks : Amt Cid) : ReadOnly (bagPeaks cc peaks) := by
  have hbag : ReadOnly (do
      let (left, p₁) ← peaks.get cc (peaks.count - 2)
      let (right, p₂) ← p₁.get cc (peaks.count - 1)
      let root ← Io.lift (hashPair cc left right)
      bagLoop cc peaks.count (List.range' 2 (peaks.count - 2)) p₂ root) :=
    (Amt.get_readOnly cc _ _).bind fun ⟨_, _⟩ => (Amt.get_readOnly cc _ _).bind fun ⟨_, _⟩ =>
      (ReadOnly.lift _).bind fun _ => bagLoop_readOnly cc _ _ _ _
  unfold bagPeaks
  refine .ite _ (.pure _) ((ReadOnly.pure _).bind fun _ => ?_)
  refine .ite _ ((Amt.get_readOnly cc _ _).bind fun
      | (some _, _) => .pure _
      | (none, _) => (ReadOnly.throw _).bind fun _ => hbag) ((ReadOnly.pure _).bind fun _ => hbag)

theorem descend_readOnly (path significantBits : Nat) :
    ∀ (is : List Nat) (pair : Cid × Cid), ReadOnly (descend cc path significantBits is pair)
  | [], _ => .pure _
  | _ :: is, _ =>
      (ReadOnly.lift _).bind fun _ => (ReadOnly.lift _).bind fun _ => (getCbor_readOnly _ _).bind fun
        | some _ => descend_readOnly path significantBits is _
        | none => .throw _

theorem getInPeak_readOnly (path : Nat) (cid : Cid) : ReadOnly (getInPeak cc path cid) := by
  unfold getInPeak
  by_cases hp : path = 1
  on_goal 1 =>
    rw [if_pos hp]
    refine (getCbor_readOnly cc.toValue cid).bind fun (o : Option S) => ?_
    cases o
    on_goal 2 => exact .pure _
    refine (ReadOnly.throw _).bind fun _ => ?_
  on_goal 2 =>
    rw [if_neg hp]
    refine (ReadOnly.pure _).bind fun _ => ?_
  all_goals
    refine (getCbor_readOnly cc.toPair cid).bind fun (o : Option (Cid × Cid)) => ?_
    rcases o with _ | _
    · exact .throw _
    · exact (ReadOnly.lift _).bind fun _ => (ReadOnly.lift _).bind fun _ =>
        (descend_readOnly cc _ _ _ _).bind fun _ => (getCbor_readOnly cc.toValue _).bind fun
          | some _ => .pure _
          | none => .throw _

theorem getAt_readOnly (leafIndex leafCount : Nat) (peaks : Amt Cid) :
    ReadOnly (getAt cc leafIndex leafCount peaks) :=
  (ReadOnly.lift _).bind fun ⟨_, _⟩ => (Amt.get_readOnly cc _ _).bind fun
    | (some _, _) => getInPeak_readOnly cc _ _
    | (none, _) => .throw _

variable {Address : Type} (self : State Cid Address)

theorem getRoot_readOnly : ReadOnly (self.getRoot cc) :=
  (Amt.load_readOnly cc _).bind fun _ => bagPeaks_readOnly cc _

theorem getPeaks_readOnly : ReadOnly (self.getPeaks cc) :=
  (Amt.load_readOnly cc _).bind fun _ => Amt.values_readOnly cc _

theorem getLeafAt_reads (index : Nat) : Reads (self.getLeafAt cc index) :=
  (Amt.load_readOnly cc _).reads.bind fun _ => ((getAt_readOnly cc _ _ _).reads.map _).tryCatch fun
    | .err _ => .pure _
    | .panic => .throw _

/-- `get_leaf_at` turns every error into `None`, so only its `Some` answers carry over to the
healed store: one comes from `get_at` returning `Ok`. -/
theorem getLeafAt_some {index : Nat} {v : S} {bs bs' : Blockstore Cid Block}
    (hrun : (self.getLeafAt cc index).run bs = (.ok (some v), bs')) :
    (self.getLeafAt cc index).run (healed bs) = (.ok (some v), healed bs') := by
  obtain ⟨amt, bs1, h1, h2⟩ := run_bind_ok hrun
  rw [Io.run_tryCatch] at h2
  rcases h3 : (some <$> getAt cc index self.leafCount amt).run bs1 with ⟨_ | o, bs2⟩ <;>
    rw [h3] at h2
  case error e =>
    cases e <;> cases h2
  case ok =>
    cases h2
    rw [State.getLeafAt, Io.run_bind, (Amt.load_readOnly cc _).transparent _ _ _ h1]
    show (tryCatch _ _ : Io Cid Block (Option S)).run (healed bs1) = _
    rw [Io.run_tryCatch, ((getAt_readOnly cc _ _ _).transparent.map some) _ _ _ h3]

end Read

end Fendermint.Faults
