import Mathlib.Logic.Function.Basic
import Mathlib.Algebra.Group.Nat.Basic

namespace Fendermint.Proxy

variable {Hash Height Cid Client : Type}

/-- `BroadcastResponse<Cid>`, one case per broadcast mode; a code `0` is `Ok`. -/
inductive BroadcastResponse (Hash Height Cid : Type)
  | async (hash : Hash)
  | sync (code : Nat) (log : String) (hash : Hash)
  | commit (checkCode : Nat) (checkLog : String) (deliverCode : Nat) (deliverLog : String)
      (hash : Hash) (height : Height) (gasUsed : Int) (returnData : Option Cid)

inductive TxnStatus
  | pending
  | committed
  deriving DecidableEq

structure Txn (Hash Height Cid : Type) where
  status : TxnStatus
  hash : Hash
  height : Option Height
  gasUsed : Int
  repoRoot : Option Cid

def Txn.pending (hash : Hash) : Txn Hash Height Cid := ⟨.pending, hash, none, 0, none⟩

def Txn.committed (hash : Hash) (height : Height) (gasUsed : Int) (repoRoot : Cid) :
    Txn Hash Height Cid :=
  ⟨.committed, hash, some height, gasUsed, some repoRoot⟩

/-- The fields of `TransArgs` the handlers set. -/
structure TransArgs where
  sequence : Nat
  gasLimit : Nat

/-- The match of `broadcast` on the response: an error code fails with its log. -/
def readResponse [Inhabited Cid] : BroadcastResponse Hash Height Cid → Except String (Txn Hash Height Cid)
  | .async hash => .ok (.pending hash)
  | .sync code log hash => if code ≠ 0 then .error log else .ok (.pending hash)
  | .commit checkCode checkLog deliverCode deliverLog hash height gasUsed returnData =>
      if checkCode ≠ 0 then .error checkLog
      else if deliverCode ≠ 0 then .error deliverLog
      else .ok (.committed hash height gasUsed (returnData.getD default))

/-- `broadcast`, creating the client with `newClient` and sending with `f`. -/
def broadcast [Inhabited Cid] (newClient : TransArgs → Except String Client)
    (f : Client → Except String (BroadcastResponse Hash Height Cid)) (args : TransArgs) :
    Except String (Txn Hash Height Cid) := do
  let client ← newClient args
  readResponse (← f client)

def blockGasLimit : Nat := 10000000000

/-- The rejections of the handlers; `other` stands for those warp raises itself. -/
inductive Rejection
  | notFound
  | badRequest (message : String)
  | payloadTooLarge
  | other (debug : String)

def handleRejection : Rejection → Nat × String
  | .notFound => (404, "Not Found")
  | .badRequest message => (400, message)
  | .payloadTooLarge => (413, "Payload too large")
  | .other debug => (500, debug)

/-- The arguments a write handler sends with once it holds the lock. -/
def prepare (args : TransArgs) (gasLimit : Option Nat) (nonce : Nat) : TransArgs :=
  { args with sequence := nonce, gasLimit := gasLimit.getD blockGasLimit }

/-- The end of a write handler: an error becomes a `BadRequest` naming the operation, a reply
advances the nonce, and `*nonce_lck += 1` panics at `u64::MAX`, with no reply (`none`) and the
nonce left. -/
def complete (op : String) (nonce : Nat) :
    Except String (Txn Hash Height Cid) → Option (Except Rejection (Txn Hash Height Cid)) × Nat
  | .error e => (some (.error (.badRequest (op ++ " error: " ++ e))), nonce)
  | .ok res => if nonce + 1 < 2 ^ 64 then (some (.ok res), nonce + 1) else (none, nonce)

/-- The write handlers under the lock on the nonce: the reply, if any, and the nonce they
leave. -/
def handleWrite (op : String) (send : TransArgs → Except String (Txn Hash Height Cid))
    (args : TransArgs) (gasLimit : Option Nat) (nonce : Nat) :
    Option (Except Rejection (Txn Hash Height Cid)) × Nat :=
  complete op nonce (send (prepare args gasLimit nonce))

def handleOsAdd (osPut : TransArgs → Except String (Txn Hash Height Cid)) :=
  handleWrite "put" osPut

def handleOsDelete (osDelete : TransArgs → Except String (Txn Hash Height Cid)) :=
  handleWrite "delete" osDelete

def handleAccPush (accPush : TransArgs → Except String (Txn Hash Height Cid)) :=
  handleWrite "push" accPush

/-- `Object` of the object store, as the handlers read it. -/
structure Object where
  value : List Nat
  resolved : Bool

/-- `handle_os_get` at the height of the query, `0` without one. -/
def handleOsGet (osGet : Nat → Except String (Option Object))
    (decode : List Nat → Except String Cid) (height : Option Nat) : Except Rejection (Cid × Bool) :=
  match osGet (height.getD 0) with
  | .error e => .error (.badRequest ("get error: " ++ e))
  | .ok none => .error .notFound
  | .ok (some obj) =>
      match decode obj.value with
      | .error e => .error (.badRequest ("failed to decode value: " ++ e))
      | .ok value => .ok (value, obj.resolved)

/-- `handle_os_list`: a key that is not UTF-8 becomes the empty string, and the first value that
does not decode fails the whole list. -/
def handleOsList (osList : Nat → Except String (Option (List (List Nat × Object))))
    (fromUtf8 : List Nat → Option String) (decode : List Nat → Except String Cid)
    (height : Option Nat) : Except Rejection (List (String × Cid × Bool)) :=
  match osList (height.getD 0) with
  | .error e => .error (.badRequest ("list error: " ++ e))
  | .ok res =>
      (res.getD []).mapM fun (key, obj) =>
        match decode obj.value with
        | .error e => .error (.badRequest ("failed to decode value: " ++ e))
        | .ok value => .ok ((fromUtf8 key).getD "", value, obj.resolved)

def handleAccRoot [Inhabited Cid] (accRoot : Nat → Except String (Option Cid))
    (height : Option Nat) : Except Rejection Cid :=
  match accRoot (height.getD 0) with
  | .error e => .error (.badRequest ("root error: " ++ e))
  | .ok root => .ok (root.getD default)

/-- The rejections the handlers raise themselves, and not warp. -/
def Rejection.Raised : Rejection → Prop
  | .notFound | .badRequest _ => True
  | .payloadTooLarge | .other _ => False

theorem handleRejection_raised {r : Rejection} (h : r.Raised) :
    (handleRejection r).1 = 400 ∨ (handleRejection r).1 = 404 := by
  cases r with
  | notFound => exact .inr rfl
  | badRequest => exact .inl rfl
  | payloadTooLarge | other => exact h.elim

/-- What a write handler can end in: a reply advancing the nonce by one, where there is room, or
the nonce left, with no transaction in the reply. -/
theorem complete_cases (op : String) (nonce : Nat) (x : Except String (Txn Hash Height Cid)) :
    (∃ t, x = .ok t ∧ nonce + 1 < 2 ^ 64 ∧ complete op nonce x = (some (.ok t), nonce + 1)) ∨
      (complete op nonce x).2 = nonce ∧ ∀ t, (complete op nonce x).1 ≠ some (.ok t) := by
  rcases x with e | t
  · exact .inr ⟨rfl, nofun⟩
  · by_cases hn : nonce + 1 < 2 ^ 64
    · exact .inl ⟨t, rfl, hn, if_pos hn⟩
    · have hc : complete op nonce (.ok t : Except String (Txn Hash Height Cid)) = (none, nonce) := if_neg hn
      exact .inr ⟨by rw [hc], fun t' => by rw [hc]; nofun⟩

theorem complete_error (op : String) (nonce : Nat) (e : String) :
    complete op nonce (.error e : Except String (Txn Hash Height Cid)) =
      (some (.error (.badRequest (op ++ " error: " ++ e))), nonce) := rfl

theorem handleWrite_raised {op : String} {send : TransArgs → Except String (Txn Hash Height Cid)}
    {args : TransArgs} {gasLimit : Option Nat} {nonce : Nat} {rej : Rejection}
    (h : (handleWrite op send args gasLimit nonce).1 = some (.error rej)) : rej.Raised := by
  unfold handleWrite at h
  cases hs : send (prepare args gasLimit nonce) <;> rw [hs] at h
  · cases h
    trivial
  · rw [complete] at h
    split_ifs at h <;> simp at h

theorem mapM_error {α β ε : Type} {f : α → Except ε β} :
    ∀ {l : List α} {e : ε}, l.mapM f = .error e → ∃ x ∈ l, f x = .error e
  | [], _, h => nomatch h
  | a :: l, e, h => by
      rw [List.mapM_cons] at h
      cases ha : f a with
      | error e' =>
          rw [ha] at h
          cases h
          exact ⟨a, List.mem_cons_self a l, ha⟩
      | ok b =>
          cases hl : l.mapM f with
          | error e' =>
              rw [ha, hl] at h
              cases h
              obtain ⟨x, hx, hfx⟩ := mapM_error hl
              exact ⟨x, List.mem_cons_of_mem a hx, hfx⟩
          | ok bs =>
              rw [ha, hl] at h
              cases h

theorem handleOsGet_raised {osGet : Nat → Except String (Option Object)}
    {decode : List Nat → Except String Cid} {height : Option Nat} {rej : Rejection}
    (h : handleOsGet osGet decode height = .error rej) : rej.Raised := by
  unfold handleOsGet at h
  split at h <;> (try split at h) <;> cases h <;> trivial

theorem handleOsList_raised {osList : Nat → Except String (Option (List (List Nat × Object)))}
    {fromUtf8 : List Nat → Option String} {decode : List Nat → Except String Cid}
    {height : Option Nat} {rej : Rejection}
    (h : handleOsList osList fromUtf8 decode height = .error rej) : rej.Raised := by
  unfold handleOsList at h
  split at h
  · cases h
    trivial
  · obtain ⟨⟨key, obj⟩, -, hx⟩ := mapM_error h
    dsimp only at hx
    split at hx <;> cases hx
    trivial

theorem handleAccRoot_raised [Inhabited Cid] {accRoot : Nat → Except String (Option Cid)}
    {height : Option Nat} {rej : Rejection} (h : handleAccRoot accRoot height = .error rej) :
    rej.Raised := by
  unfold handleAccRoot at h
  split at h <;> cases h
  trivial

/-- The handlers reject only with `NotFound` or with a `BadRequest` naming what failed:
`handle_rejection` answers every rejection they raise with 404 or 400, never with 413 or 500. -/
theorem handlers_reject_known [Inhabited Cid]
    (osPut osDelete accPush : TransArgs → Except String (Txn Hash Height Cid))
    (osGet : Nat → Except String (Option Object))
    (osList : Nat → Except String (Option (List (List Nat × Object))))
    (accRoot : Nat → Except String (Option Cid)) (fromUtf8 : List Nat → Option String)
    (decode : List Nat → Except String Cid) (args : TransArgs) (gasLimit : Option Nat) (nonce : Nat)
    (height : Option Nat) (rej : Rejection)
    (h : (handleOsAdd osPut args gasLimit nonce).1 = some (.error rej) ∨
      (handleOsDelete osDelete args gasLimit nonce).1 = some (.error rej) ∨
      (handleAccPush accPush args gasLimit nonce).1 = some (.error rej) ∨
      handleOsGet osGet decode height = .error rej ∨
      handleOsList osList fromUtf8 decode height = .error rej ∨ handleAccRoot accRoot height = .error rej) :
    (handleRejection rej).1 = 400 ∨ (handleRejection rej).1 = 404 := by
  apply handleRejection_raised
  rcases h with h | h | h | h | h | h
  · exact handleWrite_raised h
  · exact handleWrite_raised h
  · exact handleWrite_raised h
  · exact handleOsGet_raised h
  · exact handleOsList_raised h
  · exact handleAccRoot_raised h

/-- A backend that fails every call. -/
def down {α β : Type} : α → Except String β := fun _ => .error "down"

theorem handlers_reject_known_down :
    ((handleOsAdd (down : TransArgs → Except String (Txn Unit Unit Unit)) ⟨0, 0⟩ none 0).1 =
        some (.error (.badRequest "put error: down")) ∨
      (handleOsDelete (down : TransArgs → Except String (Txn Unit Unit Unit)) ⟨0, 0⟩ none 0).1 =
        some (.error (.badRequest "put error: down")) ∨
      (handleAccPush (down : TransArgs → Except String (Txn Unit Unit Unit)) ⟨0, 0⟩ none 0).1 =
        some (.error (.badRequest "put error: down")) ∨
      handleOsGet (down : Nat → Except String (Option Object)) (down : List Nat → Except String Unit) none =
        .error (.badRequest "put error: down") ∨
      handleOsList (down : Nat → Except String (Option (List (List Nat × Object)))) (fun _ => none)
        (down : List Nat → Except String Unit) none = .error (.badRequest "put error: down") ∨
      handleAccRoot (down : Nat → Except String (Option Unit)) none = .error (.badRequest "put error: down")) ∧
    ((handleRejection (.badRequest "put error: down")).1 = 400 ∨
      (handleRejection (.badRequest "put error: down")).1 = 404) :=
  have h : (handleOsAdd (down : TransArgs → Except String (Txn Unit Unit Unit)) ⟨0, 0⟩ none 0).1 =
      some (.error (.badRequest "put error: down")) := rfl
  ⟨.inl h, handlers_reject_known down down down down down down (fun _ => none) down ⟨0, 0⟩ none 0 none _ (.inl h)⟩

/-! The write handlers share one `Arc<Mutex<u64>>`: each locks it, sends its transaction with the
nonce as the sequence, and drops the guard when it returns, panics, or is itself dropped. Any
number of requests are served at once, so their steps interleave. -/

/-- A write request: the operation of its handler and its gas limit header. -/
structure Request where
  op : String
  gasLimit : Option Nat

/-- Where the handler of a write request is. -/
inductive Phase (Hash Height Cid : Type)
  | idle
  /-- At `nonce.lock().await`. -/
  | waiting
  /-- Holding the guard, its transaction sent with these arguments. -/
  | holding (args : TransArgs)
  | replied (args : TransArgs) (reply : Except Rejection (Txn Hash Height Cid))
  /-- Panicked at `*nonce_lck += 1`. -/
  | panicked (args : TransArgs)
  /-- Dropped by the server, its client gone, at the lock or at the broadcast. -/
  | dropped

/-- The phase a handler that sent with `a` ends in. -/
def Phase.ofReply (a : TransArgs) : Option (Except Rejection (Txn Hash Height Cid)) → Phase Hash Height Cid
  | some x => .replied a x
  | none => .panicked a

@[simp] theorem Phase.ofReply_ne_holding (a a' : TransArgs) (o : Option (Except Rejection (Txn Hash Height Cid))) :
    Phase.ofReply a o ≠ .holding a' := by
  cases o <;> nofun

@[simp] theorem Phase.ofReply_eq_replied {a a' : TransArgs} {o : Option (Except Rejection (Txn Hash Height Cid))}
    {x : Except Rejection (Txn Hash Height Cid)} : Phase.ofReply a o = .replied a' x ↔ a = a' ∧ o = some x := by
  cases o <;> simp [Phase.ofReply]

/-- The proxy and the chain: the nonce behind the lock, the request holding the guard, where
each handler is, and the sequence of the proxy's account. -/
structure Server (R Hash Height Cid : Type) where
  nonce : Nat
  holder : Option R
  phase : R → Phase Hash Height Cid
  chain : Nat

inductive Event (R Hash Height Cid : Type)
  | arrive (r : R)
  | acquire (r : R)
  /-- The transaction of `r` comes back with `res`, and the account is at `chain`. -/
  | finish (r : R) (res : Except String (BroadcastResponse Hash Height Cid)) (chain : Nat)
  /-- The handler of `r` is dropped, and the account is at `chain`. -/
  | cancel (r : R) (chain : Nat)

variable {R : Type}

/-- The proxy started with `--sequence n` against an account at sequence `c`. -/
def initial (n c : Nat) : Server R Hash Height Cid := ⟨n, none, fun _ => .idle, c⟩

section Protocol

/- `args` are the arguments of the command line, `req` gives each request its handler, and
`Respond c q res c'` says what the chain may do with a transaction of sequence `q` when the
account is at `c`: answer `res` and move to `c'`. -/
variable [DecidableEq R] [Inhabited Cid] (args : TransArgs) (req : R → Request)
  (Respond : Nat → Nat → Except String (BroadcastResponse Hash Height Cid) → Nat → Prop)

/-- A handler dropped at the broadcast leaves its transaction to the chain, which does with it
what it does with any, the answer unread. -/
def Enabled (s : Server R Hash Height Cid) : Event R Hash Height Cid → Prop
  | .arrive r => s.phase r = .idle
  | .acquire r => s.holder = none ∧ s.phase r = .waiting
  | .finish r res c => s.holder = some r ∧ ∃ a, s.phase r = .holding a ∧ Respond s.chain a.sequence res c
  | .cancel r c => s.phase r = .waiting ∧ c = s.chain ∨
      s.holder = some r ∧ ∃ a, s.phase r = .holding a ∧ ∃ res, Respond s.chain a.sequence res c

def next (s : Server R Hash Height Cid) : Event R Hash Height Cid → Server R Hash Height Cid
  | .arrive r => { s with phase := Function.update s.phase r .waiting }
  | .acquire r =>
      { s with holder := some r,
               phase := Function.update s.phase r (.holding (prepare args (req r).gasLimit s.nonce)) }
  | .finish r res c =>
      match s.phase r with
      | .holding a =>
          let done := complete (req r).op s.nonce (res >>= readResponse)
          { s with nonce := done.2, holder := none, phase := Function.update s.phase r (.ofReply a done.1),
                   chain := c }
      | _ => s
  | .cancel r c =>
      { s with holder := if s.holder = some r then none else s.holder,
               phase := Function.update s.phase r .dropped, chain := c }

def Step (s : Server R Hash Height Cid) (e : Event R Hash Height Cid) (t : Server R Hash Height Cid) :
    Prop :=
  Enabled Respond s e ∧ t = next args req s e

/-- The runs of the proxy: any number of steps, interleaved in any order the lock allows. -/
inductive Execution : Server R Hash Height Cid → Server R Hash Height Cid → Prop
  | refl (s : Server R Hash Height Cid) : Execution s s
  | tail {s t u : Server R Hash Height Cid} {e : Event R Hash Height Cid} :
      Execution s t → Step args req Respond t e u → Execution s u

def Reachable (n c : Nat) (s : Server R Hash Height Cid) : Prop :=
  Execution args req Respond (initial n c) s

end Protocol

/-- What the lock guarantees from the start value `n` of the nonce: one request holds the guard
exactly when the lock says so, it sends with the current nonce, and the requests answered with
a transaction sent distinct sequences, exactly `n, n + 1, ..` up to the nonce. -/
structure Safety (n : Nat) (s : Server R Hash Height Cid) : Prop where
  holder_iff : ∀ r, s.holder = some r ↔ ∃ a, s.phase r = .holding a
  holding_sequence : ∀ r a, s.phase r = .holding a → a.sequence = s.nonce
  le_nonce : n ≤ s.nonce
  replied_lt : ∀ r a t, s.phase r = .replied a (.ok t) → n ≤ a.sequence ∧ a.sequence < s.nonce
  replied_inj : ∀ r r' a a' t t', s.phase r = .replied a (.ok t) → s.phase r' = .replied a' (.ok t') →
    a.sequence = a'.sequence → r = r'
  replied_onto : ∀ q, n ≤ q → q < s.nonce → ∃ r a t, s.phase r = .replied a (.ok t) ∧ a.sequence = q

namespace Safety

variable {n : Nat} {s : Server R Hash Height Cid}

theorem initial (c : Nat) : Safety n (initial n c : Server R Hash Height Cid) where
  holder_iff _ := by simp [Proxy.initial]
  holding_sequence _ _ h := nomatch h
  le_nonce := Nat.le_refl n
  replied_lt _ _ _ h := nomatch h
  replied_inj _ _ _ _ _ _ h := nomatch h
  replied_onto _ h h' := absurd h' (by simp [Proxy.initial]; omega)

theorem not_holding (h : Safety n s) {r r' : R} (hh : s.holder = some r) (hne : r' ≠ r) (a : TransArgs) :
    s.phase r' ≠ .holding a := fun ha =>
  hne (Option.some.inj (hh.symm.trans ((h.holder_iff r').2 ⟨a, ha⟩))).symm

/-- The requests answered with a transaction, and the nonce, are all the replies depend on. -/
theorem of_replied (h : Safety n s) {s' : Server R Hash Height Cid} (hl : ∀ r, s'.holder = some r ↔ ∃ a, s'.phase r = .holding a)
    (hs : ∀ r a, s'.phase r = .holding a → a.sequence = s'.nonce) (hn : s'.nonce = s.nonce)
    (hp : ∀ r a t, s'.phase r = .replied a (.ok t) ↔ s.phase r = .replied a (.ok t)) : Safety n s' where
  holder_iff := hl
  holding_sequence := hs
  le_nonce := hn ▸ h.le_nonce
  replied_lt r a t hr := hn ▸ h.replied_lt r a t ((hp r a t).1 hr)
  replied_inj r r' a a' t t' hr hr' := h.replied_inj r r' a a' t t' ((hp r a t).1 hr) ((hp r' a' t').1 hr')
  replied_onto q hq hq' := by
    obtain ⟨r, a, t, hr, rfl⟩ := h.replied_onto q hq (hn ▸ hq')
    exact ⟨r, a, t, (hp r a t).2 hr, rfl⟩

/-- The guard gone and `r` in a phase other than holding, nobody holds. -/
theorem release [DecidableEq R] (h : Safety n s) {r : R} (hh : s.holder = some r) {p : Phase Hash Height Cid}
    (hp : ∀ a, p ≠ .holding a) (r' : R) :
    none = some r' ↔ ∃ a, Function.update s.phase r p r' = .holding a := by
  by_cases hr' : r' = r
  · subst hr'; simpa using hp
  · simpa [hr'] using h.not_holding hh hr'

/-- A finish that answers no transaction: the nonce stays, as a reply with an error or a panic
leaves it. -/
theorem finish_unanswered [DecidableEq R] (h : Safety n s) {r : R} {a : TransArgs} (hh : s.holder = some r)
    (ha : s.phase r = .holding a) {o : Option (Except Rejection (Txn Hash Height Cid))}
    (ho : ∀ t, o ≠ some (.ok t)) (c : Nat) :
    Safety n { s with holder := none, phase := Function.update s.phase r (.ofReply a o), chain := c } := by
  have hlock := h.release hh fun a' => Phase.ofReply_ne_holding a a' o
  refine h.of_replied hlock (fun r' a' h' => ?_) rfl fun r' a' t => ?_
  · exact absurd ⟨a', h'⟩ ((hlock r').not.1 nofun)
  · by_cases hr' : r' = r
    · subst hr'; simpa [ha] using fun _ => ho t
    · simp [hr']

/-- A finish that answers a transaction, with the nonce it held, and advances the nonce. -/
theorem finish_answered [DecidableEq R] (h : Safety n s) {r : R} {a : TransArgs} (hh : s.holder = some r)
    (ha : s.phase r = .holding a) (t : Txn Hash Height Cid) (c : Nat) :
    Safety n { s with nonce := s.nonce + 1, holder := none, chain := c,
                      phase := Function.update s.phase r (.replied a (.ok t)) } := by
  have hseq := h.holding_sequence r a ha
  have hlock := h.release hh (p := .replied a (.ok t)) nofun
  have hp : ∀ r' a' t', Function.update s.phase r (.replied a (.ok t)) r' = .replied a' (.ok t') ↔
      r' = r ∧ a' = a ∧ t' = t ∨ r' ≠ r ∧ s.phase r' = .replied a' (.ok t') := fun r' a' t' => by
    by_cases hr' : r' = r
    · subst hr'; simp [eq_comm]
    · simp [hr']
  have hold : ∀ r' a' t', r' ≠ r ∧ s.phase r' = .replied a' (.ok t') → a'.sequence < a.sequence :=
    fun r' a' t' h' => hseq ▸ (h.replied_lt r' a' t' h'.2).2
  refine ⟨hlock, fun r' a' h' => absurd ⟨a', h'⟩ ((hlock r').not.1 nofun),
    Nat.le_succ_of_le h.le_nonce, fun r' a' t' h' => ?_, fun r1 r2 a1 a2 t1 t2 h1 h2 heq => ?_,
    fun q hq hq' => ?_⟩
  · rcases (hp r' a' t').1 h' with ⟨-, rfl, -⟩ | h''
    · exact ⟨hseq ▸ h.le_nonce, hseq ▸ Nat.lt_succ_self _⟩
    · exact ⟨(h.replied_lt r' a' t' h''.2).1, Nat.lt_succ_of_lt (h.replied_lt r' a' t' h''.2).2⟩
  · rcases (hp r1 a1 t1).1 h1 with ⟨rfl, rfl, -⟩ | h1' <;>
      rcases (hp r2 a2 t2).1 h2 with ⟨rfl, rfl, -⟩ | h2'
    · rfl
    · exact absurd heq (Nat.ne_of_gt (hold r2 a2 t2 h2'))
    · exact absurd heq (Nat.ne_of_lt (hold r1 a1 t1 h1'))
    · exact h.replied_inj r1 r2 a1 a2 t1 t2 h1'.2 h2'.2 heq
  · rcases Nat.lt_succ_iff_lt_or_eq.1 hq' with hq' | rfl
    · obtain ⟨r', a', t', h', rfl⟩ := h.replied_onto q hq hq'
      have hr' : r' ≠ r := by rintro rfl; rw [ha] at h'; cases h'
      exact ⟨r', a', t', (hp r' a' t').2 (.inr ⟨hr', h'⟩), rfl⟩
    · exact ⟨r, a, t, (hp r a t).2 (.inl ⟨rfl, rfl, rfl⟩), hseq⟩

end Safety

section Steps

variable [DecidableEq R] [Inhabited Cid] (args : TransArgs) (req : R → Request)
  {n : Nat} {s : Server R Hash Height Cid}

theorem next_finish {r : R} {a : TransArgs} (ha : s.phase r = .holding a)
    (res : Except String (BroadcastResponse Hash Height Cid)) (c : Nat) :
    next args req s (.finish r res c) =
      { s with nonce := (complete (req r).op s.nonce (res >>= readResponse)).2, holder := none,
               phase := Function.update s.phase r (.ofReply a (complete (req r).op s.nonce (res >>= readResponse)).1),
               chain := c } := by
  simp only [next, ha]

/-- Taking the lock and finishing without another request in between is the handler: the reply
and the nonce are those of `handleWrite` with the chain's answer. -/
theorem acquire_finish (r : R) (res : Except String (BroadcastResponse Hash Height Cid)) (c : Nat) :
    let t := next args req (next args req s (.acquire r)) (.finish r res c)
    let done := handleWrite (req r).op (fun _ => res >>= readResponse) args (req r).gasLimit s.nonce
    t.phase r = .ofReply (prepare args (req r).gasLimit s.nonce) done.1 ∧ t.nonce = done.2 ∧
      t.holder = none := by
  rw [next_finish args req (a := prepare args (req r).gasLimit s.nonce) (by simp [next])]
  simp [next, handleWrite]

namespace Safety

theorem arrive (h : Safety n s) {r : R} (hr : s.phase r = .idle) :
    Safety n (next args req s (.arrive r)) := by
  refine h.of_replied (fun r' => ?_) (fun r' a => ?_) rfl (fun r' a t => ?_) <;>
    by_cases hr' : r' = r <;> simp only [next, Function.update_apply, hr', if_true, if_false]
  · subst hr'; simp [h.holder_iff, hr]
  · exact h.holder_iff r'
  · simp
  · exact h.holding_sequence r' a
  · subst hr'; simp [hr]

theorem acquire (h : Safety n s) {r : R} (hh : s.holder = none) (hr : s.phase r = .waiting) :
    Safety n (next args req s (.acquire r)) := by
  refine h.of_replied (fun r' => ?_) (fun r' a => ?_) rfl (fun r' a t => ?_) <;>
    by_cases hr' : r' = r <;> simp only [next, Function.update_apply, hr', if_true, if_false]
  · simp
  · simp [Ne.symm hr', ← h.holder_iff, hh]
  · rintro ⟨⟩
    rfl
  · exact h.holding_sequence r' a
  · subst hr'; simp [hr]

theorem finish (h : Safety n s) {r : R} {a : TransArgs} (hh : s.holder = some r)
    (ha : s.phase r = .holding a) (res : Except String (BroadcastResponse Hash Height Cid)) (c : Nat) :
    Safety n (next args req s (.finish r res c)) := by
  rw [next_finish args req ha]
  rcases complete_cases (req r).op s.nonce (res >>= readResponse) with ⟨t, -, -, hc⟩ | ⟨hn, ho⟩
  · rw [hc]
    exact h.finish_answered hh ha t c
  · rw [hn]
    exact h.finish_unanswered hh ha ho c

theorem cancel (h : Safety n s) {r : R} (hr : s.phase r = .waiting ∨ s.holder = some r) (c : Nat) :
    Safety n (next args req s (.cancel r c)) := by
  refine h.of_replied (fun r' => ?_) (fun r' a h' => ?_) rfl (fun r' a t => ?_)
  · by_cases hr' : r' = r
    · subst hr'
      rcases hr with hw | hh
      · have hn : s.holder ≠ some r' := fun hh => by simpa [hw] using (h.holder_iff r').1 hh
        simp [next, hn]
      · simp [next, hh]
    · have : (if s.holder = some r then none else s.holder) = some r' ↔ s.holder = some r' := by
        split <;> simp_all [Ne.symm hr']
      simpa [next, hr', this] using h.holder_iff r'
  · by_cases hr' : r' = r
    · subst hr'; simp [next] at h'
    · simp only [next, Function.update_apply, hr', if_false] at h' ⊢
      exact h.holding_sequence r' a h'
  · by_cases hr' : r' = r
    · subst hr'
      rcases hr with hw | hh
      · simp [next, hw]
      · obtain ⟨a', ha'⟩ := (h.holder_iff r').1 hh
        simp [next, ha']
    · simp [next, hr']

variable (Respond : Nat → Nat → Except String (BroadcastResponse Hash Height Cid) → Nat → Prop)

theorem step (h : Safety n s) {e : Event R Hash Height Cid} (he : Enabled Respond s e) :
    Safety n (next args req s e) := by
  cases e with
  | arrive r => exact h.arrive args req he
  | acquire r => exact h.acquire args req he.1 he.2
  | finish r res c =>
      obtain ⟨hh, a, ha, -⟩ := he
      exact h.finish args req hh ha res c
  | cancel r c => exact h.cancel args req (he.imp (·.1) (·.1)) c

end Safety

end Steps

/-- `broadcast_tx_commit` against a chain that checks sequences: `check_tx` passes only the
account's sequence, and a transaction that passes it consumes the sequence, whatever
`deliver_tx` returns. A call that fails in transport may or may not have reached the chain. -/
def CommitChain : Nat → Nat → Except String (BroadcastResponse Hash Height Cid) → Nat → Prop
  | c, q, .ok (.commit checkCode _ _ _ _ _ _ _), c' =>
      (checkCode = 0 → q = c) ∧ c' = if checkCode = 0 then c + 1 else c
  | _, _, .ok (.async _), _ | _, _, .ok (.sync ..), _ => False
  | c, q, .error _, c' => c' = c ∨ q = c ∧ c' = c + 1

/-- `broadcast_tx_sync` over a transport that does not fail, against a chain that checks
sequences. -/
def SyncChain : Nat → Nat → Except String (BroadcastResponse Hash Height Cid) → Nat → Prop
  | c, q, .ok (.sync code _ _), c' => (code = 0 → q = c) ∧ c' = if code = 0 then c + 1 else c
  | _, _, .ok (.async _), _ | _, _, .ok (.commit ..), _ | _, _, .error _, _ => False

/-- A chain that checks sequences, as it answers the proxy: a transaction at another sequence
than the account's fails and leaves the account where it is. -/
def Checked [Inhabited Cid] (Respond : Nat → Nat → Except String (BroadcastResponse Hash Height Cid) → Nat → Prop) :
    Prop :=
  ∀ c q res c', Respond c q res c' → q ≠ c → (∃ e, res >>= readResponse = .error e) ∧ c' = c

theorem commitChain_checked [Inhabited Cid] : Checked (CommitChain : Nat → Nat → Except String
    (BroadcastResponse Hash Height Cid) → Nat → Prop) := by
  intro c q res c' h hq
  rcases res with e | (_ | _ | ⟨checkCode, checkLog⟩)
  · exact ⟨⟨e, rfl⟩, h.resolve_right fun h' => hq h'.1⟩
  · exact h.elim
  · exact h.elim
  · have hc : checkCode ≠ 0 := fun hc => hq (h.1 hc)
    exact ⟨⟨checkLog, if_pos hc⟩, by rw [h.2, if_neg hc]⟩

theorem syncChain_checked [Inhabited Cid] : Checked (SyncChain : Nat → Nat → Except String
    (BroadcastResponse Hash Height Cid) → Nat → Prop) := by
  intro c q res c' h hq
  rcases res with _ | (_ | ⟨code, log, _⟩ | _)
  iterate 2 exact h.elim
  · have hc : code ≠ 0 := fun hc => hq (h.1 hc)
    exact ⟨⟨log, if_pos hc⟩, by rw [h.2, if_neg hc]⟩
  · exact h.elim

section Runs

variable [DecidableEq R] [Inhabited Cid] {args : TransArgs} {req : R → Request}
  {Respond : Nat → Nat → Except String (BroadcastResponse Hash Height Cid) → Nat → Prop}
  {n c : Nat} {s t u : Server R Hash Height Cid}

theorem Execution.trans (h : Execution args req Respond s t) (h' : Execution args req Respond t u) :
    Execution args req Respond s u := by
  induction h' with
  | refl => exact h
  | tail _ hs ih => exact .tail ih hs

theorem reachable_safety (h : Reachable args req Respond n c s) : Safety n s := by
  induction h with
  | refl => exact Safety.initial c
  | tail _ hs ih =>
      obtain ⟨he, rfl⟩ := hs
      exact ih.step args req Respond he

/-- Whatever the chain answers, however the requests interleave and whichever handlers are
dropped: at most one write handler holds the lock, no two requests answered with a transaction
sent the same sequence, and the sequences of those answered are exactly the start value of the
nonce up to its value now. -/
theorem nonce_safety (h : Reachable args req Respond n c s) :
    (∀ r r' a a', s.phase r = .holding a → s.phase r' = .holding a' → r = r') ∧
    (∀ r r' a a' t t', s.phase r = .replied a (.ok t) → s.phase r' = .replied a' (.ok t') →
      a.sequence = a'.sequence → r = r') ∧
    ∀ q, (∃ r a t, s.phase r = .replied a (.ok t) ∧ a.sequence = q) ↔ n ≤ q ∧ q < s.nonce := by
  have hs := reachable_safety h
  refine ⟨fun r r' a a' ha ha' => ?_, hs.replied_inj, fun q => ⟨?_, fun hq => hs.replied_onto q hq.1 hq.2⟩⟩
  · exact Option.some.inj (((hs.holder_iff r).2 ⟨a, ha⟩).symm.trans ((hs.holder_iff r').2 ⟨a', ha'⟩))
  · rintro ⟨r, a, t, hr, rfl⟩
    exact hs.replied_lt r a t hr

/-- Once the proxy's nonce is behind the account's sequence, on a chain that checks sequences, a
step answers no request with a transaction and leaves the nonce behind. -/
theorem lag_step (hchk : Checked Respond) (h : Safety n s) (hl : s.nonce < s.chain)
    {e : Event R Hash Height Cid} (he : Enabled Respond s e) :
    (next args req s e).nonce = s.nonce ∧ (next args req s e).nonce < (next args req s e).chain ∧
      ∀ r a x, (next args req s e).phase r = .replied a (.ok x) ↔ s.phase r = .replied a (.ok x) := by
  cases e with
  | arrive r =>
      have he : s.phase r = .idle := he
      refine ⟨rfl, hl, fun r' a x => ?_⟩
      by_cases hr : r' = r
      · subst hr; simp [next, he]
      · simp [next, hr]
  | acquire r =>
      refine ⟨rfl, hl, fun r' a x => ?_⟩
      by_cases hr : r' = r
      · subst hr; simp [next, he.2]
      · simp [next, hr]
  | finish r res c' =>
      obtain ⟨-, a, ha, hc⟩ := he
      have hseq := h.holding_sequence r a ha
      obtain ⟨⟨e, he⟩, rfl⟩ := hchk _ _ _ _ hc (by omega)
      rw [next_finish args req ha, he, complete_error]
      refine ⟨rfl, hl, fun r' a' x => ?_⟩
      by_cases hr : r' = r
      · subst hr; simp [ha, Phase.ofReply]
      · simp [hr]
  | cancel r c' =>
      have hc : c' = s.chain := by
        rcases he with ⟨-, rfl⟩ | ⟨-, a, ha, res, hc⟩
        · rfl
        · exact (hchk _ _ _ _ hc (by rw [h.holding_sequence r a ha]; omega)).2
      subst hc
      refine ⟨rfl, hl, fun r' a x => ?_⟩
      by_cases hr : r' = r
      · subst hr
        rcases he with ⟨hw, -⟩ | ⟨-, a', ha', -⟩ <;> simp [next, *]
      · simp [next, hr]

theorem lag_run (hchk : Checked Respond) (hs : Reachable args req Respond n c s) (hl : s.nonce < s.chain)
    (hx : Execution args req Respond s u) :
    u.nonce = s.nonce ∧ u.nonce < u.chain ∧
      ∀ r a x, u.phase r = .replied a (.ok x) ↔ s.phase r = .replied a (.ok x) := by
  induction hx with
  | refl => exact ⟨rfl, hl, fun _ _ _ => Iff.rfl⟩
  | @tail t u e ht hstep ih =>
      obtain ⟨he, rfl⟩ := hstep
      obtain ⟨h1, h2, h3⟩ := ih
      obtain ⟨h1', h2', h3'⟩ := lag_step hchk (reachable_safety (hs.trans ht)) h2 he
      exact ⟨h1'.trans h1, h2', fun r a x => (h3' r a x).trans (h3 r a x)⟩

/-- In commit mode, one transaction that passes `check_tx` and fails `deliver_tx` is enough to
stop the proxy for good: the chain has consumed the sequence and the proxy has not, so from then
on every transaction it sends fails `check_tx`, no request is answered with a transaction, and
the nonce never moves again. -/
theorem deliver_failure_locks_out (hs : Reachable args req CommitChain n c s) {r : R}
    {checkLog deliverLog : String} {deliverCode : Nat} {hash : Hash} {height : Height} {gasUsed : Int}
    {returnData : Option Cid} {c' : Nat}
    (hstep : Step args req CommitChain s
      (.finish r (.ok (.commit 0 checkLog deliverCode deliverLog hash height gasUsed returnData)) c') t)
    (hd : deliverCode ≠ 0) (hx : Execution args req CommitChain t u) :
    u.nonce = s.nonce ∧ ∀ r' a x, u.phase r' = .replied a (.ok x) ↔ s.phase r' = .replied a (.ok x) := by
  have hreach := Execution.tail hs hstep
  obtain ⟨⟨-, a, ha, hq, hc⟩, rfl⟩ := hstep
  have hseq := (reachable_safety hs).holding_sequence r a ha
  have hres : (Except.ok (.commit 0 checkLog deliverCode deliverLog hash height gasUsed returnData) >>=
      readResponse : Except String (Txn Hash Height Cid)) = .error deliverLog := by
    show readResponse (BroadcastResponse.commit 0 checkLog deliverCode deliverLog hash height gasUsed
      returnData) = _
    simp [readResponse, hd]
  rw [next_finish args req ha, hres, complete_error] at hreach hx
  have hlag : s.nonce < c' := by rw [hc, if_pos rfl, ← hseq, hq rfl]; exact Nat.lt_succ_self _
  obtain ⟨h1, -, h3⟩ := lag_run commitChain_checked hreach hlag hx
  refine ⟨h1, fun r' a' x => (h3 r' a' x).trans ?_⟩
  by_cases hr : r' = r
  · subst hr; simp [ha, Phase.ofReply]
  · simp [hr]

/-- On a chain that checks sequences, in sync mode as in commit mode, a handler dropped at its
broadcast after the account took its transaction stops the proxy for good: the sequence is
consumed and the nonce stays, so from then on no request is answered with a transaction and the
nonce never moves again. -/
theorem cancel_locks_out (hchk : Checked Respond) (hs : Reachable args req Respond n c s) {r : R}
    (hstep : Step args req Respond s (.cancel r (s.chain + 1)) t) (hx : Execution args req Respond t u) :
    u.nonce = s.nonce ∧ s.nonce < u.chain ∧
      ∀ r' a x, u.phase r' = .replied a (.ok x) ↔ s.phase r' = .replied a (.ok x) := by
  have hreach := Execution.tail hs hstep
  obtain ⟨he, rfl⟩ := hstep
  obtain ⟨a, ha, hseq⟩ : ∃ a, s.phase r = .holding a ∧ a.sequence = s.chain := by
    rcases he with ⟨-, h⟩ | ⟨-, a, ha, res, hc⟩
    · omega
    · refine ⟨a, ha, Classical.byContradiction fun hq => ?_⟩
      have := (hchk _ _ _ _ hc hq).2
      omega
  have hnonce := (reachable_safety hs).holding_sequence r a ha
  obtain ⟨h1, h2, h3⟩ := lag_run hchk hreach (by simp [next]; omega) hx
  refine ⟨h1, h1 ▸ h2, fun r' a' x => (h3 r' a' x).trans ?_⟩
  by_cases hr : r' = r
  · subst hr; simp [next, ha]
  · simp [next, hr]

end Runs

/-- Requests that all push with the default gas limit. -/
def pushes : Bool → Request := fun _ => ⟨"push", none⟩

/-- The request `true` holding the lock, the nonce and the account both at `0`. -/
def holdingTrue : Server Bool Unit Unit Unit :=
  next ⟨0, 0⟩ pushes (next ⟨0, 0⟩ pushes (initial 0 0) (.arrive true)) (.acquire true)

theorem holdingTrue_reachable
    (Respond : Nat → Nat → Except String (BroadcastResponse Unit Unit Unit) → Nat → Prop) :
    Reachable ⟨0, 0⟩ pushes Respond 0 0 holdingTrue :=
  .tail (e := .acquire true) (.tail (e := .arrive true) (.refl _) ⟨rfl, rfl⟩) ⟨⟨rfl, rfl⟩, rfl⟩

/-- A transaction committed without error. -/
def committed : Except String (BroadcastResponse Unit Unit Unit) := .ok (.commit 0 "" 0 "" () () 0 none)

/-- `true` and then `false` answered with committed transactions. -/
def answeredBoth : Server Bool Unit Unit Unit :=
  next ⟨0, 0⟩ pushes (next ⟨0, 0⟩ pushes (next ⟨0, 0⟩ pushes
    (next ⟨0, 0⟩ pushes holdingTrue (.finish true committed 1)) (.arrive false)) (.acquire false))
    (.finish false committed 2)

theorem nonce_safety_answered :
    Reachable ⟨0, 0⟩ pushes CommitChain 0 0 answeredBoth ∧
    (∀ r r' a a', answeredBoth.phase r = .holding a → answeredBoth.phase r' = .holding a' → r = r') ∧
    (∀ r r' a a' t t', answeredBoth.phase r = .replied a (.ok t) → answeredBoth.phase r' = .replied a' (.ok t') →
      a.sequence = a'.sequence → r = r') ∧
    ∀ q, (∃ r a t, answeredBoth.phase r = .replied a (.ok t) ∧ a.sequence = q) ↔ 0 ≤ q ∧ q < answeredBoth.nonce :=
  have h : Reachable ⟨0, 0⟩ pushes CommitChain 0 0 answeredBoth :=
    .tail (e := .finish false committed 2)
      (.tail (e := .acquire false) (.tail (e := .arrive false)
        (.tail (e := .finish true committed 1) (holdingTrue_reachable _) ⟨⟨rfl, _, rfl, fun _ => rfl, rfl⟩, rfl⟩)
        ⟨rfl, rfl⟩) ⟨⟨rfl, rfl⟩, rfl⟩)
      ⟨⟨rfl, _, rfl, fun _ => rfl, rfl⟩, rfl⟩
  ⟨h, nonce_safety h⟩

/-- The transaction of `true` passes `check_tx` and runs out of gas in `deliver_tx`. -/
def outOfGas : Except String (BroadcastResponse Unit Unit Unit) := .ok (.commit 0 "" 1 "out of gas" () () 0 none)

/-- The request `false` then takes the lock, and its transaction fails `check_tx`. -/
def rejected : Server Bool Unit Unit Unit :=
  next ⟨0, 0⟩ pushes (next ⟨0, 0⟩ pushes (next ⟨0, 0⟩ pushes
    (next ⟨0, 0⟩ pushes holdingTrue (.finish true outOfGas 1)) (.arrive false)) (.acquire false))
    (.finish false (.ok (.commit 1 "sequence mismatch" 0 "" () () 0 none)) 1)

theorem deliver_failure_locks_out_outOfGas :
    (Reachable ⟨0, 0⟩ pushes CommitChain 0 0 holdingTrue ∧
      Step ⟨0, 0⟩ pushes CommitChain holdingTrue (.finish true (.ok (.commit 0 "" 1 "out of gas" () () 0 none)) 1)
        (next ⟨0, 0⟩ pushes holdingTrue (.finish true outOfGas 1)) ∧ (1 : Nat) ≠ 0 ∧
      Execution ⟨0, 0⟩ pushes CommitChain (next ⟨0, 0⟩ pushes holdingTrue (.finish true outOfGas 1)) rejected) ∧
    rejected.nonce = holdingTrue.nonce ∧
      ∀ r' a x, rejected.phase r' = .replied a (.ok x) ↔ holdingTrue.phase r' = .replied a (.ok x) :=
  have hstep : Step ⟨0, 0⟩ pushes CommitChain holdingTrue
      (.finish true (.ok (.commit 0 "" 1 "out of gas" () () 0 none)) 1)
      (next ⟨0, 0⟩ pushes holdingTrue (.finish true outOfGas 1)) := ⟨⟨rfl, _, rfl, fun _ => rfl, rfl⟩, rfl⟩
  have hx : Execution ⟨0, 0⟩ pushes CommitChain (next ⟨0, 0⟩ pushes holdingTrue (.finish true outOfGas 1))
      rejected :=
    .tail (e := .finish false (.ok (.commit 1 "sequence mismatch" 0 "" () () 0 none)) 1)
      (.tail (e := .acquire false) (.tail (e := .arrive false) (.refl _) ⟨rfl, rfl⟩) ⟨⟨rfl, rfl⟩, rfl⟩)
      ⟨⟨rfl, _, rfl, nofun, rfl⟩, rfl⟩
  ⟨⟨holdingTrue_reachable _, hstep, by decide, hx⟩,
    deliver_failure_locks_out (holdingTrue_reachable _) hstep (by decide) hx⟩

/-- The handler of `true` is dropped once `check_tx` has passed its transaction. -/
def droppedTrue : Server Bool Unit Unit Unit := next ⟨0, 0⟩ pushes holdingTrue (.cancel true 1)

/-- The request `false` then takes the lock, and its transaction fails `check_tx`. -/
def mismatched : Server Bool Unit Unit Unit :=
  next ⟨0, 0⟩ pushes (next ⟨0, 0⟩ pushes (next ⟨0, 0⟩ pushes droppedTrue (.arrive false)) (.acquire false))
    (.finish false (.ok (.sync 1 "sequence mismatch" ())) 1)

theorem cancel_locks_out_sync :
    (Checked (SyncChain : Nat → Nat → Except String (BroadcastResponse Unit Unit Unit) → Nat → Prop) ∧
      Reachable ⟨0, 0⟩ pushes SyncChain 0 0 holdingTrue ∧
      Step ⟨0, 0⟩ pushes SyncChain holdingTrue (.cancel true (holdingTrue.chain + 1)) droppedTrue ∧
      Execution ⟨0, 0⟩ pushes SyncChain droppedTrue mismatched) ∧
    mismatched.nonce = holdingTrue.nonce ∧ holdingTrue.nonce < mismatched.chain ∧
      ∀ r' a x, mismatched.phase r' = .replied a (.ok x) ↔ holdingTrue.phase r' = .replied a (.ok x) :=
  have hstep : Step ⟨0, 0⟩ pushes SyncChain holdingTrue (.cancel true (holdingTrue.chain + 1)) droppedTrue :=
    ⟨.inr ⟨rfl, _, rfl, .ok (.sync 0 "" ()), fun _ => rfl, rfl⟩, rfl⟩
  have hx : Execution ⟨0, 0⟩ pushes SyncChain droppedTrue mismatched :=
    .tail (e := .finish false (.ok (.sync 1 "sequence mismatch" ())) 1)
      (.tail (e := .acquire false) (.tail (e := .arrive false) (.refl _) ⟨rfl, rfl⟩) ⟨⟨rfl, rfl⟩, rfl⟩)
      ⟨⟨rfl, _, rfl, nofun, rfl⟩, rfl⟩
  ⟨⟨syncChain_checked, holdingTrue_reachable _, hstep, hx⟩,
    cancel_locks_out syncChain_checked (holdingTrue_reachable _) hstep hx⟩

/-- `broadcast_tx_async` against a chain that checks sequences: the call returns before `check_tx`
runs, and the chain then includes the transaction only at the account's sequence, or drops it. -/
def AsyncChain : Nat → Nat → Except String (BroadcastResponse Hash Height Cid) → Nat → Prop
  | c, q, .ok (.async _), c' | c, q, .error _, c' => c' = c ∨ q = c ∧ c' = c + 1
  | _, _, .ok (.sync ..), _ | _, _, .ok (.commit ..), _ => False

theorem asyncChain_of_ne {c q c' : Nat} {res : Except String (BroadcastResponse Hash Height Cid)}
    (h : AsyncChain c q res c') (hq : q ≠ c) : c' = c := by
  rcases res with _ | (_ | _ | _)
  iterate 2 exact h.resolve_right fun h' => hq h'.1
  iterate 2 exact h.elim

section Async

variable [DecidableEq R] [Inhabited Cid] {args : TransArgs} {req : R → Request}
  {n c : Nat} {s t u : Server R Hash Height Cid}

/-- A step answers no request but the one holding the guard, with the arguments it holds. -/
theorem next_replied (e : Event R Hash Height Cid) {r : R} {a : TransArgs}
    {x : Except Rejection (Txn Hash Height Cid)} (hr : (next args req s e).phase r = .replied a x) :
    s.phase r = .replied a x ∨ s.phase r = .holding a := by
  cases e with
  | arrive r' | acquire r' | cancel r' =>
      by_cases h : r = r' <;> simp_all [next]
  | finish r' res c' =>
      simp only [next] at hr
      split at hr
      · by_cases h : r = r'
        · subst h; simp_all
        · simp_all
      · exact .inl hr

theorem nonce_le_next (e : Event R Hash Height Cid) : s.nonce ≤ (next args req s e).nonce := by
  cases e with
  | arrive | acquire | cancel => exact Nat.le_refl _
  | finish r res c' =>
      simp only [next]
      split
      · rcases complete_cases (req r).op s.nonce (res >>= readResponse) with ⟨t, -, -, hc⟩ | ⟨hn, -⟩
        · rw [hc]; exact Nat.le_succ _
        · exact Nat.le_of_eq hn.symm
      · exact Nat.le_refl _

/-- Once the proxy's nonce is past the account's sequence, a step leaves the chain where it is. -/
theorem drift_step (h : Safety n s) (hl : s.chain < s.nonce) {e : Event R Hash Height Cid}
    (he : Enabled AsyncChain s e) : (next args req s e).chain = s.chain := by
  cases e with
  | arrive | acquire => rfl
  | finish r res c' =>
      obtain ⟨-, a, ha, hc⟩ := he
      rw [next_finish args req ha]
      exact asyncChain_of_ne hc (by rw [h.holding_sequence r a ha]; omega)
  | cancel r c' =>
      rcases he with ⟨-, rfl⟩ | ⟨-, a, ha, res, hc⟩
      · rfl
      · exact asyncChain_of_ne hc (by rw [h.holding_sequence r a ha]; omega)

theorem drift_run (hs : Reachable args req AsyncChain n c s) (hl : s.chain < s.nonce)
    (hx : Execution args req AsyncChain s u) :
    u.chain = s.chain ∧ s.nonce ≤ u.nonce ∧
      ∀ r a x, u.phase r = .replied a (.ok x) → s.phase r = .replied a (.ok x) ∨ s.nonce ≤ a.sequence := by
  induction hx with
  | refl => exact ⟨rfl, Nat.le_refl _, fun _ _ _ h => .inl h⟩
  | @tail t u e ht hstep ih =>
      obtain ⟨he, rfl⟩ := hstep
      obtain ⟨h1, h2, h3⟩ := ih
      have hsafe := reachable_safety (hs.trans ht)
      refine ⟨(drift_step hsafe (by omega) he).trans h1, Nat.le_trans h2 (nonce_le_next e),
        fun r a x hr => ?_⟩
      rcases next_replied e hr with hr | hr
      · exact h3 r a x hr
      · exact .inr (hsafe.holding_sequence r a hr ▸ h2)

/-- In async mode, one transaction the chain drops is enough to lose every later write: the
proxy answers it as pending and moves its nonce past the account's sequence, so from then on
the chain never includes another of its transactions, while every request answered with a
transaction carries a sequence beyond the account's. -/
theorem async_drop_loses_writes (hs : Reachable args req AsyncChain n c s) {r : R} {hash : Hash}
    (hc : s.chain ≤ s.nonce) (hn : s.nonce + 1 < 2 ^ 64)
    (hstep : Step args req AsyncChain s (.finish r (.ok (.async hash)) s.chain) t)
    (hx : Execution args req AsyncChain t u) :
    (∃ a, t.phase r = .replied a (.ok (.pending hash))) ∧ u.chain = s.chain ∧
      ∀ r' a x, u.phase r' = .replied a (.ok x) → t.phase r' = .replied a (.ok x) ∨ u.chain < a.sequence := by
  have hreach := Execution.tail hs hstep
  obtain ⟨⟨-, a, ha, -⟩, rfl⟩ := hstep
  have hres : complete (req r).op s.nonce
      ((Except.ok (.async hash) : Except String (BroadcastResponse Hash Height Cid)) >>= readResponse) =
      (some (.ok (.pending hash)), s.nonce + 1) :=
    if_pos hn
  rw [next_finish args req ha, hres] at hreach hx ⊢
  obtain ⟨h1, -, h3⟩ := drift_run hreach (Nat.lt_succ_of_le hc) hx
  have h1 : u.chain = s.chain := h1
  refine ⟨⟨a, by simp [Phase.ofReply]⟩, h1, fun r' a' x hr => (h3 r' a' x hr).imp_right fun h => ?_⟩
  dsimp only at h
  omega

/-- The chain drops the transaction of `true`, answered as pending. -/
def pendingTrue : Server Bool Unit Unit Unit :=
  next ⟨0, 0⟩ pushes holdingTrue (.finish true (.ok (.async ())) 0)

/-- The request `false` then takes the lock and is answered as pending too. -/
def pendingFalse : Server Bool Unit Unit Unit :=
  next ⟨0, 0⟩ pushes (next ⟨0, 0⟩ pushes (next ⟨0, 0⟩ pushes pendingTrue (.arrive false))
    (.acquire false)) (.finish false (.ok (.async ())) 0)

theorem async_drop_loses_writes_pending :
    (Reachable ⟨0, 0⟩ pushes AsyncChain 0 0 holdingTrue ∧ holdingTrue.chain ≤ holdingTrue.nonce ∧
      holdingTrue.nonce + 1 < 2 ^ 64 ∧
      Step ⟨0, 0⟩ pushes AsyncChain holdingTrue (.finish true (.ok (.async ())) holdingTrue.chain)
        pendingTrue ∧
      Execution ⟨0, 0⟩ pushes AsyncChain pendingTrue pendingFalse) ∧
    (∃ a, pendingTrue.phase true = .replied a (.ok (.pending ()))) ∧
      pendingFalse.chain = holdingTrue.chain ∧
      ∀ r' a x, pendingFalse.phase r' = .replied a (.ok x) →
        pendingTrue.phase r' = .replied a (.ok x) ∨ pendingFalse.chain < a.sequence :=
  have hs := holdingTrue_reachable AsyncChain
  have hstep : Step ⟨0, 0⟩ pushes AsyncChain holdingTrue (.finish true (.ok (.async ())) 0)
      pendingTrue := ⟨⟨rfl, _, rfl, .inl rfl⟩, rfl⟩
  have hx : Execution ⟨0, 0⟩ pushes AsyncChain pendingTrue pendingFalse :=
    .tail (e := .finish false (.ok (.async ())) 0)
      (.tail (e := .acquire false) (.tail (e := .arrive false) (.refl _) ⟨rfl, rfl⟩) ⟨⟨rfl, rfl⟩, rfl⟩)
      ⟨⟨rfl, _, rfl, .inl rfl⟩, rfl⟩
  ⟨⟨hs, Nat.le_refl 0, by decide, hstep, hx⟩, async_drop_loses_writes hs (Nat.le_refl 0) (by decide) hstep hx⟩

end Async

end Fendermint.Proxy
