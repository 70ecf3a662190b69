import Mathlib.Data.List.Basic

namespace Fendermint.Ipfs

/-- What `client.resolve_ipfs` returned for a task. -/
inductive Resolution
  /-- `Err(e)`: the service is not listening. -/
  | unavailable
  | done
  | failed
  deriving DecidableEq

/-- What `start_resolve` does with a task once the client has answered. -/
inductive Outcome
  | drop
  /-- `schedule_retry`: sleep `retry_delay`, then write the task back to the queue. -/
  | retry
  /-- `set_resolved`, and our own vote, published to the peers when `publish`. -/
  | resolve (publish : Bool)
  deriving DecidableEq

/-- `start_resolve` from the client's answer on; `signed` and `added` are the outcomes of
`VoteRecord::signed` and `add_object_vote`, `none` for an error. -/
def startResolve : Resolution → Bool → Option Bool → Outcome
  | .unavailable, _, _ => .drop
  | .failed, _, _ => .retry
  | .done, true, some true => .resolve true
  | .done, _, _ => .resolve false

/-- A task is dropped exactly when the client is unavailable, retried exactly when the
resolution failed, and its vote published exactly when it was resolved, signed and newly
added. -/
theorem startResolve_spec (res : Resolution) (signed : Bool) (added : Option Bool) :
    (startResolve res signed added = .drop ↔ res = .unavailable) ∧
    (startResolve res signed added = .retry ↔ res = .failed) ∧
    (startResolve res signed added = .resolve true ↔
      res = .done ∧ signed = true ∧ added = some true) := by
  cases res <;> cases signed <;> rcases added with _ | _ | _ <;> decide

/-- The resolver: where each task is, the votes published and, as ghost data, every task the
pool submitted. -/
structure Resolver (T : Type) where
  queue : List T
  running : List T
  sleeping : List T
  resolved : List T
  dropped : List T
  published : List T
  submitted : List T

inductive Event (T : Type)
  /-- The pool writes a task to the queue. -/
  | submit (t : T)
  /-- The loop of `run`: read the next task and spawn `start_resolve`. -/
  | take
  /-- The client answers for `t`, and the vote is signed and added as the flags say. -/
  | answer (t : T) (res : Resolution) (signed : Bool) (added : Option Bool)
  /-- The sleep of `schedule_retry` for `t` ends. -/
  | wake (t : T)

variable {T : Type} [DecidableEq T]

def initial : Resolver T := ⟨[], [], [], [], [], [], []⟩

def Enabled (s : Resolver T) : Event T → Prop
  | .submit _ => True
  | .take => s.queue ≠ []
  | .answer t _ _ _ => t ∈ s.running
  | .wake t => t ∈ s.sleeping

instance (s : Resolver T) (e : Event T) : Decidable (Enabled s e) := by
  cases e <;> unfold Enabled <;> infer_instance

def next (s : Resolver T) : Event T → Resolver T
  | .submit t => { s with queue := s.queue ++ [t], submitted := s.submitted ++ [t] }
  | .take =>
      match s.queue with
      | [] => s
      | t :: queue => { s with queue := queue, running := t :: s.running }
  | .answer t res signed added =>
      match startResolve res signed added with
      | .drop => { s with running := s.running.erase t, dropped := s.dropped ++ [t] }
      | .retry => { s with running := s.running.erase t, sleeping := s.sleeping ++ [t] }
      | .resolve publish =>
          { s with running := s.running.erase t, resolved := s.resolved ++ [t],
                   published := if publish then s.published ++ [t] else s.published }
  | .wake t => { s with sleeping := s.sleeping.erase t, queue := s.queue ++ [t] }

def Step (s : Resolver T) (e : Event T) (s' : Resolver T) : Prop := Enabled s e ∧ s' = next s e

inductive Execution : Resolver T → Resolver T → Prop
  | refl (s : Resolver T) : Execution s s
  | tail {s t u : Resolver T} {e : Event T} : Execution s t → Step t e u → Execution s u

def Reachable (s : Resolver T) : Prop := Execution initial s

/-- Every submitted task is in exactly one place, as many times as it was submitted, and a vote
is published only for content resolved. -/
structure Inv (s : Resolver T) : Prop where
  conserved : ∀ x, s.queue.count x + s.running.count x + s.sleeping.count x +
    s.resolved.count x + s.dropped.count x = s.submitted.count x
  published_resolved : ∀ t ∈ s.published, t ∈ s.resolved

theorem inv_initial : Inv (initial : Resolver T) := ⟨fun _ => rfl, fun _ h => nomatch h⟩

/-- Moving `t` from `l`, where it is, to the end of `m` keeps the count of every task. -/
theorem count_move {l m : List T} {t : T} (h : t ∈ l) (x : T) :
    (l.erase t).count x + (m ++ [t]).count x = l.count x + m.count x := by
  rw [List.count_erase, List.count_append, List.count_singleton']
  have := List.count_pos_iff.2 h
  by_cases hx : t = x
  · subst hx; simp; omega
  · simp [hx, Ne.symm hx]

theorem inv_step {s : Resolver T} (h : Inv s) {e : Event T} (he : Enabled s e) :
    Inv (next s e) := by
  have hc := h.conserved
  cases e with
  | submit t =>
      refine ⟨fun x => ?_, h.published_resolved⟩
      have := hc x
      simp only [next, List.count_append]
      omega
  | take =>
      rcases hq : s.queue with _ | ⟨t, q⟩
      · exact absurd hq he
      · refine ⟨fun x => ?_, by simpa [next, hq] using h.published_resolved⟩
        have := hc x
        simp only [next, hq, List.count_cons] at this ⊢
        omega
  | answer t res signed added =>
      have hm := fun (m : List T) x => count_move (m := m) (show t ∈ s.running from he) x
      refine ⟨fun x => ?_, fun u hu => ?_⟩
      · have := hc x; have := hm s.dropped x; have := hm s.sleeping x; have := hm s.resolved x
        cases ho : startResolve res signed added <;> simp only [next, ho] <;> omega
      · have hp := h.published_resolved u
        cases ho : startResolve res signed added with
        | drop | retry => simpa [next, ho] using hp (by simpa [next, ho] using hu)
        | resolve publish =>
            simp only [next, ho] at hu ⊢
            split at hu
            · exact List.mem_append.2 ((List.mem_append.1 hu).imp_left hp)
            · exact List.mem_append_left _ (hp hu)
  | wake t =>
      refine ⟨fun x => ?_, h.published_resolved⟩
      have := hc x
      have := count_move (m := s.queue) (show t ∈ s.sleeping from he) x
      simp only [next]
      omega

/-- No step takes a task back from the resolved, the dropped or the published ones. -/
theorem next_prefix (s : Resolver T) (e : Event T) :
    s.resolved <+: (next s e).resolved ∧ s.dropped <+: (next s e).dropped ∧
      s.published <+: (next s e).published := by
  cases e with
  | submit | wake => exact ⟨List.prefix_refl _, List.prefix_refl _, List.prefix_refl _⟩
  | take =>
      rcases hq : s.queue with _ | ⟨t, q⟩ <;> simp [next, hq]
  | answer t res signed added =>
      cases ho : startResolve res signed added with
      | drop | retry => simp [next, ho]
      | resolve publish =>
          refine ⟨by simp [next, ho], by simp [next, ho], ?_⟩
          simp only [next, ho]
          split
          · exact List.prefix_append _ _
          · exact List.prefix_refl _

theorem Execution.trans {s t u : Resolver T} (h : Execution s t) (h' : Execution t u) :
    Execution s u := by
  induction h' with
  | refl => exact h
  | tail _ hs ih => exact .tail ih hs

theorem reachable_inv {s : Resolver T} (h : Reachable s) : Inv s := by
  induction h with
  | refl => exact inv_initial
  | tail _ hs ih =>
      obtain ⟨he, rfl⟩ := hs
      exact inv_step ih he

/-- Along every run of the resolver, from any reachable state: no task is lost or duplicated,
each being in exactly one of the queue, the spawned tasks, the retries, the resolved and the
dropped as many times as it was submitted; a vote is published only for resolved content; and
no resolved, dropped or published task is ever taken back, so a task dropped because the
client was unavailable is never retried. -/
theorem resolver_safety {s u : Resolver T} (hs : Reachable s) (hx : Execution s u) :
    (∀ x, u.queue.count x + u.running.count x + u.sleeping.count x + u.resolved.count x +
      u.dropped.count x = u.submitted.count x) ∧ (∀ t ∈ u.published, t ∈ u.resolved) ∧
    s.resolved <+: u.resolved ∧ s.dropped <+: u.dropped ∧ s.published <+: u.published := by
  have hu := reachable_inv (Execution.trans hs hx)
  refine ⟨hu.conserved, hu.published_resolved, ?_⟩
  clear hu
  induction hx with
  | refl => exact ⟨List.prefix_refl _, List.prefix_refl _, List.prefix_refl _⟩
  | @tail t u e _ hstep ih =>
      obtain ⟨-, rfl⟩ := hstep
      obtain ⟨h1, h2, h3⟩ := next_prefix t e
      exact ⟨ih.1.trans h1, ih.2.1.trans h2, ih.2.2.trans h3⟩

/-- One task submitted, taken, resolved, and its vote published. -/
def oneResolved : Resolver Nat :=
  next (next (next initial (.submit 7)) .take) (.answer 7 .done true (some true))

theorem resolver_safety_one :
    (Reachable (initial : Resolver Nat) ∧ Execution initial oneResolved) ∧
    (∀ x, oneResolved.queue.count x + oneResolved.running.count x + oneResolved.sleeping.count x +
      oneResolved.resolved.count x + oneResolved.dropped.count x = oneResolved.submitted.count x) ∧
    (∀ t ∈ oneResolved.published, t ∈ oneResolved.resolved) ∧
    (initial : Resolver Nat).resolved <+: oneResolved.resolved ∧
    (initial : Resolver Nat).dropped <+: oneResolved.dropped ∧
    (initial : Resolver Nat).published <+: oneResolved.published :=
  have hx : Execution initial oneResolved :=
    .tail (e := .answer 7 .done true (some true))
      (.tail (e := .take) (.tail (e := .submit 7) (.refl _) ⟨trivial, rfl⟩) ⟨by decide, rfl⟩)
      ⟨by decide, rfl⟩
  ⟨⟨.refl _, hx⟩, resolver_safety (.refl _) hx⟩

end Fendermint.Ipfs
