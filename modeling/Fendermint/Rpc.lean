import Mathlib.Algebra.Group.Nat.Basic

namespace Fendermint.Rpc

variable {σ ε α β Address Token Object Sig Key ChainId E : Type}

/-- A method taking `&mut self` and returning `anyhow::Result`, with `self` as it leaves it. -/
structure Mut (σ ε α : Type) where
  run : σ → Except ε α × σ

instance : Monad (Mut σ ε) where
  pure a := ⟨fun s => (.ok a, s)⟩
  bind m f := ⟨fun s => match m.run s with
    | (.ok a, s) => (f a).run s
    | (.error e, s) => (.error e, s)⟩

def Mut.get : Mut σ ε σ := ⟨fun s => (.ok s, s)⟩

def Mut.modify (f : σ → σ) : Mut σ ε Unit := ⟨fun s => (.ok (), f s)⟩

def Mut.lift (x : Except ε α) : Mut σ ε α := ⟨fun s => (x, s)⟩

@[simp] theorem Mut.run_pure (a : α) (s : σ) : (pure a : Mut σ ε α).run s = (.ok a, s) := rfl

@[simp] theorem Mut.run_get (s : σ) : (Mut.get : Mut σ ε σ).run s = (.ok s, s) := rfl

@[simp] theorem Mut.run_modify (f : σ → σ) (s : σ) :
    (Mut.modify f : Mut σ ε Unit).run s = (.ok (), f s) := rfl

@[simp] theorem Mut.run_lift (x : Except ε α) (s : σ) :
    (Mut.lift x : Mut σ ε α).run s = (x, s) := rfl

theorem Mut.run_bind (m : Mut σ ε α) (f : α → Mut σ ε β) (s : σ) :
    (m >>= f).run s = match m.run s with
      | (.ok a, s) => (f a).run s
      | (.error e, s) => (.error e, s) := rfl

theorem Mut.run_map (f : α → β) (m : Mut σ ε α) (s : σ) :
    (f <$> m).run s = match m.run s with
      | (.ok a, s) => (.ok (f a), s)
      | (.error e, s) => (.error e, s) := rfl

/-- How a call ends without a value: an error it returns, or a panic. -/
inductive Failure (E : Type)
  | err (e : E)
  | panic
  deriving DecidableEq

structure GasParams (Token : Type) where
  gasLimit : Nat
  gasFeeCap : Token
  gasPremium : Token
  deriving DecidableEq

/-- `fvm_shared::message::Message` without `version`, which `transaction` leaves at its default. -/
structure Message (Address Token : Type) where
  fromAddr : Address
  toAddr : Address
  sequence : Nat
  value : Token
  methodNum : Nat
  params : List Nat
  gasLimit : Nat
  gasFeeCap : Token
  gasPremium : Token
  deriving DecidableEq

/-- `SignedMessage`: the message, its signature and the object it announces. -/
structure SignedMessage (Address Token Object Sig : Type) where
  message : Message Address Token
  signature : Sig
  object : Option Object
  deriving DecidableEq

/-- `ChainMessage`; the payload of `Ipc` is not modelled. -/
inductive ChainMessage (Address Token Object Sig : Type)
  | signed (m : SignedMessage Address Token Object Sig)
  | ipc
  deriving DecidableEq

structure MessageFactory (Address : Type) where
  addr : Address
  sequence : Nat
  deriving DecidableEq

structure SignedMessageFactory (Address Key ChainId : Type) where
  inner : MessageFactory Address
  sk : Key
  chainId : ChainId
  deriving DecidableEq

/-- The actor addresses and method numbers `message.rs` takes from the actor interfaces. -/
structure Actors (Address : Type) where
  objectstoreActorAddr : Address
  accumulatorActorAddr : Address
  eamActorAddr : Address
  methodSend : Nat
  putObject : Nat
  deleteObject : Nat
  getObject : Nat
  listObjects : Nat
  push : Nat
  get : Nat
  root : Nat
  createExternal : Nat
  invokeContract : Nat

/-- `self.sequence += 1` on a `u64`, which panics where it would overflow. -/
def checkedSucc (n : Nat) : Except (Failure E) Nat :=
  if n + 1 < 2 ^ 64 then .ok (n + 1) else .error .panic

def MessageFactory.setSequence (self : MessageFactory Address) (sequence : Nat) :
    MessageFactory Address :=
  { self with sequence }

/-- The message `MessageFactory::transaction` builds. -/
def MessageFactory.message (self : MessageFactory Address) (toAddr : Address) (methodNum : Nat)
    (params : List Nat) (value : Token) (gasParams : GasParams Token) : Message Address Token :=
  ⟨self.addr, toAddr, self.sequence, value, methodNum, params, gasParams.gasLimit, gasParams.gasFeeCap,
    gasParams.gasPremium⟩

@[simp] theorem MessageFactory.message_sequence (self : MessageFactory Address) (toAddr : Address)
    (methodNum : Nat) (params : List Nat) (value : Token) (gasParams : GasParams Token) :
    (self.message toAddr methodNum params value gasParams).sequence = self.sequence := rfl

/-- `MessageFactory::transaction`. -/
def MessageFactory.transaction (toAddr : Address) (methodNum : Nat) (params : List Nat)
    (value : Token) (gasParams : GasParams Token) :
    Mut (MessageFactory Address) (Failure E) (Message Address Token) := do
  let self ← Mut.get
  let msg := self.message toAddr methodNum params value gasParams
  let sequence ← Mut.lift (checkedSucc self.sequence)
  Mut.modify fun self => { self with sequence }
  return msg

/-- `MessageFactory::transaction` builds its message and advances the sequence, unless the
sequence is the largest `u64`. -/
theorem MessageFactory.transaction_run (self : MessageFactory Address) (toAddr : Address)
    (methodNum : Nat) (params : List Nat) (value : Token) (gasParams : GasParams Token) :
    (MessageFactory.transaction toAddr methodNum params value gasParams : Mut _ (Failure E) _).run
        self =
      if self.sequence + 1 < 2 ^ 64 then
        (.ok (self.message toAddr methodNum params value gasParams),
          self.setSequence (self.sequence + 1))
      else (.error .panic, self) := by
  by_cases hn : self.sequence + 1 < 2 ^ 64 <;>
    simp only [MessageFactory.transaction, checkedSucc, Mut.run_bind, Mut.run_get, Mut.run_lift, hn,
      if_true, if_false]
  rfl

section Unsigned

variable (actors : Actors Address)

/-- `MessageFactory::fevm_invoke`; `calldata` is the outcome of serializing it. -/
def MessageFactory.fevmInvoke (contract : Address) (calldata : Except E (List Nat)) (value : Token)
    (gasParams : GasParams Token) :
    Mut (MessageFactory Address) (Failure E) (Message Address Token) := do
  let calldata ← Mut.lift (calldata.mapError .err)
  MessageFactory.transaction contract actors.invokeContract calldata value gasParams

/-- `MessageFactory::fevm_create`; `initcode` is the outcome of serializing it. -/
def MessageFactory.fevmCreate (initcode : Except E (List Nat)) (value : Token)
    (gasParams : GasParams Token) :
    Mut (MessageFactory Address) (Failure E) (Message Address Token) := do
  let initcode ← Mut.lift (initcode.mapError .err)
  MessageFactory.transaction actors.eamActorAddr actors.createExternal initcode value gasParams

def MessageFactory.fevmCall (contract : Address) (calldata : Except E (List Nat)) (value : Token)
    (gasParams : GasParams Token) :
    Mut (MessageFactory Address) (Failure E) (Message Address Token) := do
  let msg ← MessageFactory.fevmInvoke actors contract calldata value gasParams
  Mut.modify fun self => self.setSequence msg.sequence
  return msg

/-- The unsigned factory's `fevm_call` leaves the factory as it found it, whatever it returns:
nothing can fail between the advance of the sequence and its roll back. -/
theorem MessageFactory.fevmCall_state (self : MessageFactory Address) (contract : Address)
    (calldata : Except E (List Nat)) (value : Token) (gasParams : GasParams Token) :
    ((MessageFactory.fevmCall actors contract calldata value gasParams : Mut _ (Failure E) _).run
      self).2 = self := by
  rcases calldata with e | calldata
  · rfl
  · by_cases hn : self.sequence + 1 < 2 ^ 64 <;>
      simp only [MessageFactory.fevmCall, MessageFactory.fevmInvoke, Mut.run_bind, Mut.run_lift,
        Except.mapError, MessageFactory.transaction_run, hn, if_true, if_false]
    rfl

end Unsigned

/-- The message a chain message carries, if signed: `signed.into_message()`. -/
def ChainMessage.intoMessage : ChainMessage Address Token Object Sig → Option (Message Address Token)
  | .signed s => some s.message
  | .ipc => none

/-- A call to one of the builders of `SignedMessageFactory`, with its arguments. -/
inductive Call (Address Token Object E : Type)
  | transaction (toAddr : Address) (methodNum : Nat) (params : List Nat) (value : Token)
      (gasParams : GasParams Token) (object : Option Object)
  | transfer (toAddr : Address) (value : Token) (gasParams : GasParams Token)
  | osPut (params : Except E (List Nat)) (object : Option Object) (value : Token)
      (gasParams : GasParams Token)
  | osDelete (params : Except E (List Nat)) (value : Token) (gasParams : GasParams Token)
  | osGet (params : Except E (List Nat)) (value : Token) (gasParams : GasParams Token)
  | osList (params : Except E (List Nat)) (value : Token) (gasParams : GasParams Token)
  | accPush (event : Except E (List Nat)) (value : Token) (gasParams : GasParams Token)
  | accGetAt (value : Token) (gasParams : GasParams Token) (index : Except E (List Nat))
  | accRoot (value : Token) (gasParams : GasParams Token)
  | fevmCreate (initcode : Except E (List Nat)) (value : Token) (gasParams : GasParams Token)
  | fevmInvoke (contract : Address) (calldata : Except E (List Nat)) (value : Token)
      (gasParams : GasParams Token)
  | fevmCall (contract : Address) (calldata : Except E (List Nat)) (value : Token)
      (gasParams : GasParams Token)

/-- How far a call that returns `Ok` is meant to move the sequence: none for the builders that
"will not create a transaction". -/
def Call.advance : Call Address Token Object E → Nat
  | .osGet .. | .osList .. | .accGetAt .. | .accRoot .. | .fevmCall .. => 0
  | _ => 1

theorem Call.advance_le_one (c : Call Address Token Object E) : c.advance ≤ 1 := by
  cases c <;> simp [Call.advance]

/-- The message `transaction` builds from `inner` once the parameters serialize, with the object
it is signed with. -/
def sendSigned (inner : MessageFactory Address) (params : Except E (List Nat)) (toAddr : Address)
    (methodNum : Nat) (value : Token) (gasParams : GasParams Token) (object : Option Object) :
    Option (Message Address Token × Option Object) :=
  params.toOption.map fun params => (inner.message toAddr methodNum params value gasParams, object)

/-- The message a call hands the signer from the inner factory `inner`, with its object: none
where its parameters do not serialize, as it then never reaches the signer. -/
def Call.signed (actors : Actors Address) (inner : MessageFactory Address) :
    Call Address Token Object E → Option (Message Address Token × Option Object)
  | .transaction toAddr methodNum params value gasParams object =>
      some (inner.message toAddr methodNum params value gasParams, object)
  | .transfer toAddr value gasParams => some (inner.message toAddr actors.methodSend [] value gasParams, none)
  | .osPut params object value gasParams =>
      sendSigned inner params actors.objectstoreActorAddr actors.putObject value gasParams object
  | .osDelete params value gasParams =>
      sendSigned inner params actors.objectstoreActorAddr actors.deleteObject value gasParams none
  | .osGet params value gasParams =>
      sendSigned inner params actors.objectstoreActorAddr actors.getObject value gasParams none
  | .osList params value gasParams =>
      sendSigned inner params actors.objectstoreActorAddr actors.listObjects value gasParams none
  | .accPush event value gasParams =>
      sendSigned inner event actors.accumulatorActorAddr actors.push value gasParams none
  | .accGetAt value gasParams index =>
      sendSigned inner index actors.accumulatorActorAddr actors.get value gasParams none
  | .accRoot value gasParams => some (inner.message actors.accumulatorActorAddr actors.root [] value gasParams, none)
  | .fevmCreate initcode value gasParams =>
      sendSigned inner initcode actors.eamActorAddr actors.createExternal value gasParams none
  | .fevmInvoke contract calldata value gasParams =>
      sendSigned inner calldata contract actors.invokeContract value gasParams none
  | .fevmCall contract calldata value gasParams =>
      sendSigned inner calldata contract actors.invokeContract value gasParams none

namespace SignedMessageFactory

/-- The factory with its inner sequence set to `n`. -/
def withSequence (self : SignedMessageFactory Address Key ChainId) (n : Nat) :
    SignedMessageFactory Address Key ChainId :=
  { self with inner := self.inner.setSequence n }

@[simp] theorem withSequence_sequence (self : SignedMessageFactory Address Key ChainId) (n : Nat) :
    (self.withSequence n).inner.sequence = n := rfl

@[simp] theorem withSequence_withSequence (self : SignedMessageFactory Address Key ChainId) (m n : Nat) :
    (self.withSequence m).withSequence n = self.withSequence n := rfl

@[simp] theorem withSequence_self (self : SignedMessageFactory Address Key ChainId) :
    self.withSequence self.inner.sequence = self := rfl

/-- A method of the inner `MessageFactory`, called through `self.inner`. -/
def onInner (m : Mut (MessageFactory Address) ε α) :
    Mut (SignedMessageFactory Address Key ChainId) ε α :=
  ⟨fun self => match m.run self.inner with
    | (r, inner) => (r, { self with inner })⟩

section Methods

-- `SignedMessage::new_secp256k1`, which lives outside this crate: the signature of a message and
-- its object under a key and a chain ID, or the error it fails with.
variable (sign : Message Address Token → Option Object → Key → ChainId → Except E Sig)
  (actors : Actors Address)

/-- `SignedMessageFactory::transaction`. -/
def transaction (toAddr : Address) (methodNum : Nat) (params : List Nat) (value : Token)
    (gasParams : GasParams Token) (object : Option Object) :
    Mut (SignedMessageFactory Address Key ChainId) (Failure E)
      (ChainMessage Address Token Object Sig) := do
  let message ← onInner (MessageFactory.transaction toAddr methodNum params value gasParams)
  let self ← Mut.get
  let signature ← Mut.lift ((sign message object self.sk self.chainId).mapError .err)
  return .signed ⟨message, signature, object⟩

/-- The builders that serialize their parameters, with outcome `params`, then call
`self.transaction(..)?`. -/
def send (params : Except E (List Nat)) (toAddr : Address) (methodNum : Nat) (value : Token)
    (gasParams : GasParams Token) (object : Option Object) :
    Mut (SignedMessageFactory Address Key ChainId) (Failure E)
      (ChainMessage Address Token Object Sig) := do
  let params ← Mut.lift (params.mapError .err)
  transaction sign toAddr methodNum params value gasParams object

/-- The read-only builders: the message `message` builds, the sequence rolled back to its own. -/
def rollBack
    (message : Mut (SignedMessageFactory Address Key ChainId) (Failure E)
      (ChainMessage Address Token Object Sig)) :
    Mut (SignedMessageFactory Address Key ChainId) (Failure E) (Message Address Token) := do
  let message ← message
  let message ← match message with
    | .signed signed => pure signed.message
    | .ipc => Mut.lift (.error .panic)
  Mut.modify fun self => { self with inner := self.inner.setSequence message.sequence }
  return message

def transfer (toAddr : Address) (value : Token) (gasParams : GasParams Token) :=
  transaction sign toAddr actors.methodSend [] value gasParams (none : Option Object)

/-- `SignedMessageFactory::os_put`; `object` is the one `params.kind` names, if external. -/
def osPut (params : Except E (List Nat)) (object : Option Object) (value : Token)
    (gasParams : GasParams Token) :=
  send sign params actors.objectstoreActorAddr actors.putObject value gasParams object

def osDelete (params : Except E (List Nat)) (value : Token) (gasParams : GasParams Token) :=
  send sign params actors.objectstoreActorAddr actors.deleteObject value gasParams (none : Option Object)

def osGet (params : Except E (List Nat)) (value : Token) (gasParams : GasParams Token) :=
  rollBack (send sign params actors.objectstoreActorAddr actors.getObject value gasParams
    (none : Option Object))

def osList (params : Except E (List Nat)) (value : Token) (gasParams : GasParams Token) :=
  rollBack (send sign params actors.objectstoreActorAddr actors.listObjects value gasParams
    (none : Option Object))

/-- `SignedMessageFactory::acc_push`; `event` is the outcome of serializing the event. -/
def accPush (event : Except E (List Nat)) (value : Token) (gasParams : GasParams Token) :=
  send sign event actors.accumulatorActorAddr actors.push value gasParams (none : Option Object)

/-- `SignedMessageFactory::acc_get_at`; `index` is the outcome of serializing the index. -/
def accGetAt (value : Token) (gasParams : GasParams Token) (index : Except E (List Nat)) :=
  rollBack (send sign index actors.accumulatorActorAddr actors.get value gasParams
    (none : Option Object))

def accRoot (value : Token) (gasParams : GasParams Token) :=
  rollBack (transaction sign actors.accumulatorActorAddr actors.root [] value gasParams
    (none : Option Object))

/-- `SignedMessageFactory::fevm_create`; `initcode` is the outcome of serializing it. -/
def fevmCreate (initcode : Except E (List Nat)) (value : Token) (gasParams : GasParams Token) :=
  send sign initcode actors.eamActorAddr actors.createExternal value gasParams (none : Option Object)

/-- `SignedMessageFactory::fevm_invoke`; `calldata` is the outcome of serializing it. -/
def fevmInvoke (contract : Address) (calldata : Except E (List Nat)) (value : Token)
    (gasParams : GasParams Token) :=
  send sign calldata contract actors.invokeContract value gasParams (none : Option Object)

def fevmCall (contract : Address) (calldata : Except E (List Nat)) (value : Token)
    (gasParams : GasParams Token) :=
  rollBack (fevmInvoke sign actors contract calldata value gasParams)

/-- What a call from `self` can end in, where `advance` is how far an `Ok` moves the sequence,
`built` reads the message off what it returns, and `signed` is the message and object it hands
the signer, if it gets that far: a panic only where the sequence is the largest `u64`; `Err` with
`self` as it was or, where the signer refused that message, with the sequence already advanced;
`Ok` with the sequence advanced by `advance` and a message that carries the sequence held
before. -/
def Outcome (self : SignedMessageFactory Address Key ChainId) (advance : Nat)
    (built : α → Option (Message Address Token))
    (signed : Option (Message Address Token × Option Object)) :
    Except (Failure E) α × SignedMessageFactory Address Key ChainId → Prop
  | (.error .panic, _) => 2 ^ 64 ≤ self.inner.sequence + 1
  | (.error (.err e), self') => self' = self ∨
      self' = self.withSequence (self.inner.sequence + 1) ∧
        ∃ m o, signed = some (m, o) ∧ sign m o self.sk self.chainId = .error e
  | (.ok a, self') => self' = self.withSequence (self.inner.sequence + advance) ∧
      (built a).map Message.sequence = some self.inner.sequence

theorem transaction_outcome (self : SignedMessageFactory Address Key ChainId) (toAddr : Address)
    (methodNum : Nat) (params : List Nat) (value : Token) (gasParams : GasParams Token)
    (object : Option Object) :
    Outcome sign self 1 ChainMessage.intoMessage
      (some (self.inner.message toAddr methodNum params value gasParams, object))
      ((transaction sign toAddr methodNum params value gasParams object).run self) := by
  by_cases hn : self.inner.sequence + 1 < 2 ^ 64
  · rcases hs : sign (self.inner.message toAddr methodNum params value gasParams) object self.sk
      self.chainId with e | signature <;>
      simp only [transaction, onInner, Mut.run_bind, Mut.run_get, Mut.run_lift,
        MessageFactory.transaction_run, hn, if_true, hs, Except.mapError]
    · exact .inr ⟨rfl, _, _, rfl, hs⟩
    · exact ⟨rfl, rfl⟩
  · simp only [transaction, onInner, Mut.run_bind, MessageFactory.transaction_run, hn, if_false]
    exact Nat.not_lt.1 hn

theorem send_outcome (self : SignedMessageFactory Address Key ChainId) (params : Except E (List Nat))
    (toAddr : Address) (methodNum : Nat) (value : Token) (gasParams : GasParams Token)
    (object : Option Object) :
    Outcome sign self 1 ChainMessage.intoMessage
      (sendSigned self.inner params toAddr methodNum value gasParams object)
      ((send sign params toAddr methodNum value gasParams object).run self) := by
  rcases params with e | params
  · exact .inl rfl
  · exact transaction_outcome sign self toAddr methodNum params value gasParams object

/-- The roll back undoes the advance of a call that produced a signed message. -/
theorem rollBack_outcome {self : SignedMessageFactory Address Key ChainId}
    {signed : Option (Message Address Token × Option Object)}
    {m : Mut (SignedMessageFactory Address Key ChainId) (Failure E)
      (ChainMessage Address Token Object Sig)}
    (hm : Outcome sign self 1 ChainMessage.intoMessage signed (m.run self)) :
    Outcome sign self 0 some signed ((rollBack m).run self) := by
  rcases h : m.run self with ⟨(e | _) | (signed | _), self'⟩ <;> rw [h] at hm <;>
    simp only [rollBack, Mut.run_bind, h]
  · exact hm
  · exact hm
  · obtain ⟨rfl, hs⟩ := hm
    exact ⟨by rw [← Option.some.inj hs]; rfl, hs⟩
  · cases hm.2

theorem Outcome.map {self : SignedMessageFactory Address Key ChainId} {advance : Nat}
    {built : β → Option (Message Address Token)} {built' : α → Option (Message Address Token)}
    {signed : Option (Message Address Token × Option Object)}
    {f : α → β} (hf : ∀ a, built (f a) = built' a)
    {m : Mut (SignedMessageFactory Address Key ChainId) (Failure E) α}
    (hm : Outcome sign self advance built' signed (m.run self)) :
    Outcome sign self advance built signed ((f <$> m).run self) := by
  rcases h : m.run self with ⟨(e | _) | a, self'⟩ <;> rw [h] at hm <;> simp only [Mut.run_map, h]
  · exact hm
  · exact hm
  · exact ⟨hm.1, by rw [hf]; exact hm.2⟩

/-- A call, each builder returning what it returns in the source. -/
def exec : Call Address Token Object E →
    Mut (SignedMessageFactory Address Key ChainId) (Failure E)
      (ChainMessage Address Token Object Sig ⊕ Message Address Token)
  | .transaction toAddr methodNum params value gasParams object =>
      .inl <$> transaction sign toAddr methodNum params value gasParams object
  | .transfer toAddr value gasParams => .inl <$> transfer sign actors toAddr value gasParams
  | .osPut params object value gasParams => .inl <$> osPut sign actors params object value gasParams
  | .osDelete params value gasParams => .inl <$> osDelete sign actors params value gasParams
  | .osGet params value gasParams => .inr <$> osGet sign actors params value gasParams
  | .osList params value gasParams => .inr <$> osList sign actors params value gasParams
  | .accPush event value gasParams => .inl <$> accPush sign actors event value gasParams
  | .accGetAt value gasParams index => .inr <$> accGetAt sign actors value gasParams index
  | .accRoot value gasParams => .inr <$> accRoot sign actors value gasParams
  | .fevmCreate initcode value gasParams => .inl <$> fevmCreate sign actors initcode value gasParams
  | .fevmInvoke contract calldata value gasParams =>
      .inl <$> fevmInvoke sign actors contract calldata value gasParams
  | .fevmCall contract calldata value gasParams =>
      .inr <$> fevmCall sign actors contract calldata value gasParams

/-- What each builder can do: that of `transaction`, reached directly, through `send`, or under a
roll back. -/
theorem exec_outcome (c : Call Address Token Object E)
    (self : SignedMessageFactory Address Key ChainId) :
    Outcome sign self c.advance (Sum.elim ChainMessage.intoMessage some) (c.signed actors self.inner)
      ((exec sign actors c).run self) := by
  cases c <;> refine Outcome.map sign (fun _ => rfl) ?_
  case transaction | transfer => exact transaction_outcome sign _ _ _ _ _ _ _
  case osPut | osDelete | accPush | fevmCreate | fevmInvoke => exact send_outcome sign _ _ _ _ _ _ _
  case osGet | osList | accGetAt | fevmCall =>
    exact rollBack_outcome sign (send_outcome sign _ _ _ _ _ _ _)
  case accRoot => exact rollBack_outcome sign (transaction_outcome sign _ _ _ _ _ _ _)

/-- Every builder that returns `Ok` leaves the factory as it was but for the sequence, advanced by
one where it produced a transaction and back where it started for a read-only builder; the
message it built carries the sequence held before the call. -/
theorem exec_ok {c : Call Address Token Object E}
    {self self' : SignedMessageFactory Address Key ChainId}
    {r : ChainMessage Address Token Object Sig ⊕ Message Address Token}
    (h : (exec sign actors c).run self = (.ok r, self')) :
    self' = self.withSequence (self.inner.sequence + c.advance) ∧
      (Sum.elim ChainMessage.intoMessage some r).map Message.sequence = some self.inner.sequence := by
  have ho := exec_outcome sign actors c self
  rwa [h] at ho

/-- A client making `calls` one after another past every `Err`: the number of
transaction-producing calls that returned `Ok` and the factory, or `none` once a call panics. -/
def runCalls : List (Call Address Token Object E) → SignedMessageFactory Address Key ChainId →
    Option (Nat × SignedMessageFactory Address Key ChainId)
  | [], self => some (0, self)
  | c :: cs, self => match (exec sign actors c).run self with
    | (.ok _, self') => (runCalls cs self').map fun r => (c.advance + r.1, r.2)
    | (.error (.err _), self') => runCalls cs self'
    | (.error .panic, _) => none

/-- With a signer that never fails, and room for the sequence, a run of calls panics nowhere and
ends with the sequence at its initial value plus the number of transaction-producing calls that
returned `Ok`, the rest of the factory unchanged. -/
theorem runCalls_sequence (hsign : ∀ m o k i, ∃ s, sign m o k i = .ok s) :
    ∀ (cs : List (Call Address Token Object E)) (self : SignedMessageFactory Address Key ChainId),
      self.inner.sequence + cs.length < 2 ^ 64 →
      ∃ k ≤ cs.length,
        runCalls sign actors cs self = some (k, self.withSequence (self.inner.sequence + k))
  | [], self, _ => ⟨0, Nat.le_refl 0, rfl⟩
  | c :: cs, self, hn => by
    have ho := exec_outcome sign actors c self
    have hlen : self.inner.sequence + 1 + cs.length < 2 ^ 64 := by
      simp only [List.length_cons] at hn; omega
    rcases h : (exec sign actors c).run self with ⟨(e | _) | r, self'⟩ <;> rw [h] at ho
    · obtain rfl | ⟨-, m, o, -, hs⟩ := ho
      · obtain ⟨k, hk, hrun⟩ := runCalls_sequence hsign cs self' (by omega)
        exact ⟨k, by simp only [List.length_cons]; omega, by simp only [runCalls, h, hrun]⟩
      · obtain ⟨s, hs'⟩ := hsign m o self.sk self.chainId
        cases hs.symm.trans hs'
    · have hover : 2 ^ 64 ≤ self.inner.sequence + 1 := ho
      omega
    · obtain ⟨rfl, -⟩ := ho
      have h1 := c.advance_le_one
      obtain ⟨k, hk, hrun⟩ := runCalls_sequence hsign cs
        (self.withSequence (self.inner.sequence + c.advance))
        (by simp only [withSequence_sequence]; omega)
      refine ⟨c.advance + k, by simp only [List.length_cons]; omega, ?_⟩
      simp only [runCalls, h, hrun, Option.map_some', withSequence_withSequence, withSequence_sequence,
        Nat.add_assoc]

end Methods

/-- A signer that refuses every message. -/
def refusingSign : Message Nat Nat → Option Unit → Unit → Nat → Except Unit Unit :=
  fun _ _ _ _ => .error ()

/-- A signer that signs every message. -/
def acceptingSign : Message Nat Nat → Option Unit → Unit → Nat → Except Unit Unit :=
  fun _ _ _ _ => .ok ()

/-- Actor addresses and method numbers, all `0`. -/
def zeroActors : Actors Nat := ⟨0, 0, 0, 0, 0, 0, 0, 0, 0, 0, 0, 0, 0⟩

/-- A factory at sequence `n`. -/
def factoryAt (n : Nat) : SignedMessageFactory Nat Unit Nat := ⟨⟨0, n⟩, (), 0⟩

theorem exec_ok_transfer :
    (exec acceptingSign zeroActors (.transfer 0 0 ⟨0, 0, 0⟩)).run (factoryAt 5) =
        (.ok (.inl (.signed ⟨⟨0, 0, 5, 0, 0, [], 0, 0, 0⟩, (), none⟩)), factoryAt 6) ∧
      factoryAt 6 = (factoryAt 5).withSequence ((factoryAt 5).inner.sequence +
        (Call.transfer 0 0 ⟨0, 0, 0⟩ : Call Nat Nat Unit Unit).advance) ∧
      (Sum.elim ChainMessage.intoMessage some
        (.inl (.signed ⟨⟨0, 0, 5, 0, 0, [], 0, 0, 0⟩, (), none⟩) :
          ChainMessage Nat Nat Unit Unit ⊕ Message Nat Nat)).map Message.sequence =
        some (factoryAt 5).inner.sequence :=
  have h : (exec acceptingSign zeroActors (.transfer 0 0 ⟨0, 0, 0⟩)).run (factoryAt 5) =
      (.ok (.inl (.signed ⟨⟨0, 0, 5, 0, 0, [], 0, 0, 0⟩, (), none⟩)), factoryAt 6) := rfl
  ⟨h, exec_ok acceptingSign zeroActors h⟩

/-- Where the signer refuses the message, `transfer` and `os_get` return `Err` with the sequence
already moved from `5` to `6`, and a run of that one `transfer` counts no transaction yet ends at
`6`. -/
theorem signer_err_advances :
    (transfer refusingSign zeroActors 0 0 ⟨0, 0, 0⟩).run (factoryAt 5) =
        (.error (.err ()), factoryAt 6) ∧
      (osGet refusingSign zeroActors (.ok []) 0 ⟨0, 0, 0⟩).run (factoryAt 5) =
        (.error (.err ()), factoryAt 6) ∧
      runCalls refusingSign zeroActors [.transfer 0 0 ⟨0, 0, 0⟩] (factoryAt 5) =
        some (0, factoryAt 6) :=
  ⟨rfl, rfl, rfl⟩

theorem runCalls_sequence_two :
    (∀ m o k i, ∃ s, acceptingSign m o k i = .ok s) ∧
      (factoryAt 5).inner.sequence + ([.transfer 0 0 ⟨0, 0, 0⟩, .osGet (.ok []) 0 ⟨0, 0, 0⟩] :
          List (Call Nat Nat Unit Unit)).length < 2 ^ 64 ∧
      ∃ k ≤ ([.transfer 0 0 ⟨0, 0, 0⟩, .osGet (.ok []) 0 ⟨0, 0, 0⟩] :
          List (Call Nat Nat Unit Unit)).length,
        runCalls acceptingSign zeroActors [.transfer 0 0 ⟨0, 0, 0⟩, .osGet (.ok []) 0 ⟨0, 0, 0⟩]
            (factoryAt 5) =
          some (k, (factoryAt 5).withSequence ((factoryAt 5).inner.sequence + k)) :=
  have hsign : ∀ m o k i, ∃ s, acceptingSign m o k i = .ok s := fun _ _ _ _ => ⟨(), rfl⟩
  ⟨hsign, by decide, runCalls_sequence acceptingSign zeroActors hsign _ _ (by decide)⟩

end SignedMessageFactory

end Fendermint.Rpc
