import Libft.Networking.Calls
import Libft.Networking.Lemmas.Datagrams

/-!
# Two connections

Two nodes that are each other's peer, and a network between them. The network keeps every datagram that a side ever sent, and may hand
any of them to the other side at any time, from any address: one that it never hands over is lost, one that it hands over twice is
duplicated, and the order is its own. Between two datagrams each side makes any calls. The messages that a side queued are kept as
history.
-/

namespace Libft.Networking

open Function Option

/-- The two sides. -/
inductive Side where
  | left | right
  deriving DecidableEq, Repr

namespace Side

/-- The peer of a side. -/
def other : Side → Side
  | .left => .right
  | .right => .left

@[simp] theorem other_other (s : Side) : s.other.other = s := by cases s <;> rfl

@[simp] theorem other_ne (s : Side) : s.other ≠ s := by cases s <;> nofun

/-- What holds for a side and its peer holds for both. -/
theorem both (s : Side) {P : Side → Prop} (hs : P s) (ho : P s.other) (t : Side) : P t := by
  cases s <;> cases t <;> first | exact hs | exact ho

end Side

/-- The cryptography that both sides share, and the configuration of each. -/
structure PairCtx where
  crypto : CryptoBackend
  cfg : Side → TransportConfig

/-- What one side sees of it. -/
def PairCtx.ctx (Γ : PairCtx) (s : Side) : Ctx := ⟨Γ.crypto, Γ.cfg s⟩

/-- A message that was queued, with the id it was given and the number its channel had next for a reliable message. -/
structure QueuedMessage where
  options : SendOptions
  data : Bytes
  messageId : UInt64
  sequence : UInt64
  deriving DecidableEq, Repr

/-- Two nodes, and the messages each has queued. -/
structure Pair where
  node : Side → Node
  queued : Side → List QueuedMessage := fun _ => []

/-- The cores of the nodes. -/
def Pair.cores (p : Pair) (s : Side) : Core := core (p.node s)

/-- The calls that process a datagram. -/
def Call.isProcess : Call → Bool
  | .process _ _ => true
  | _ => false

/-- What happens next: a side makes a call, or is handed the datagram that its peer sent at an index. -/
inductive Action where
  | call (side : Side) (i : Input) (h : i.call.isProcess = false := by rfl)
  | deliver (side : Side) (index : Nat) (source : Endpoint) (env : Env)

namespace Action

/-- Where it happens. -/
def side : Action → Side
  | .call side _ _ => side
  | .deliver side _ _ _ => side

/-- The call that it comes down to; none when the peer has not sent that datagram. -/
def input (p : Pair) : Action → Option Input
  | .call _ i _ => some i
  | .deliver side index source env => (p.node side.other).wire[index]?.map fun entry => ⟨.process source entry.2, env⟩

end Action

/-- The message that a call queues. -/
def queuedBy (Γ : Ctx) (n : Node) (i : Input) : Option QueuedMessage :=
  match i.call with
  | .send data options =>
    if (sendConnectionMessage Γ i.env n data options).2 = .success then
      some ⟨options, data, n.connection.nextMessage, (channelState n.connection.channels options.channel).nextReliableSequence⟩
    else none
  | _ => none

/-- One action. -/
def pairStep (Γ : PairCtx) (p : Pair) (a : Action) : Pair :=
  match a.input p with
  | none => p
  | some i =>
    { node := Function.update p.node a.side (step (Γ.ctx a.side) (p.node a.side) i)
      queued := Function.update p.queued a.side (p.queued a.side ++ (queuedBy (Γ.ctx a.side) (p.node a.side) i).toList) }

/-- A run. -/
def runPair (Γ : PairCtx) (p : Pair) (actions : List Action) : Pair := actions.foldl (pairStep Γ) p

/-! ## Invariants of a pair -/

theorem Pair.cores_update (node : Side → Node) (qs : Side → List QueuedMessage) (s : Side) (n : Node) :
    Pair.cores ⟨update node s n, qs⟩ = update (Pair.cores ⟨node, qs⟩) s (core n) := by
  funext t
  by_cases ht : t = s
  · subst ht
    simp [Pair.cores]
  · simp [Pair.cores, ht]

variable {n : Node} {i : Input} {data : Bytes}

/-- No call but a send queues a message. -/
theorem CallLabel.not_enqueue {Γ : Ctx} {opt : SendOptions}
    (hc : ∀ data opt, i.call ≠ .send data opt) : ¬CallLabel Γ n i (.enqueue opt data) := by
  obtain ⟨call, e⟩ := i
  cases call with
  | send data opt => exact fun _ => hc data opt rfl
  | _ => exact id

theorem queuedBy_eq_none {Γ : Ctx} (hc : ∀ data opt, i.call ≠ .send data opt) : queuedBy Γ n i = none := by
  obtain ⟨call, e⟩ := i
  cases call with
  | send data opt => exact absurd rfl (hc data opt)
  | _ => rfl

/-- The labels that only a datagram gives. -/
def Label.isHeard : Label → Bool
  | .install | .opened | .answer _ _ | .confirm _ | .record _ | .acknowledge _ _ | .hear _ | .deliver _ _ | .buffer _ _
  | .release _ | .lose _ | .openRecord _ _ | .store _ | .complete _ => true
  | _ => false

theorem CallLabel.heard {Γ : Ctx} {l : Label} (h : CallLabel Γ n i l) (hl : l.isHeard = true) :
    ∃ src data, i.call = .process src data ∧ ProcessLabel Γ i.env n src data l := by
  obtain ⟨call, e⟩ := i
  cases call with
  | process src data => exact ⟨src, data, rfl, h⟩
  | send data o =>
    obtain rfl : l = .enqueue o data := h
    cases hl
  | _ =>
    exfalso
    cases l <;> first | exact h | cases hl

/-- A datagram that a side processes was sent by its peer. -/
theorem Action.mem_wire {p : Pair} {a : Action} {src : Endpoint} (hi : a.input p = some i)
    (hc : i.call = .process src data) : ∃ d, (d, data) ∈ (p.cores a.side.other).wire := by
  cases a with
  | call side j hj =>
    obtain rfl : j = i := some.inj hi
    rw [hc] at hj
    cases hj
  | deliver side idx s env =>
    obtain ⟨ent, he, rfl⟩ := map_eq_some_iff.1 hi
    obtain ⟨-, rfl⟩ := Call.process.inj hc
    exact ⟨ent.1, List.mem_of_getElem? he⟩

section Invariants

variable {Γ : PairCtx} {p : Pair} {a : Action}

/-- What a pair keeps through an action, at the cost of the packets it sends: it is enough that it keeps it through every step of the
side the action happens on, with the peer as it was before the action, and through a message that is queued. -/
theorem pairStep_budget {I : ℕ → (Side → Core) → (Side → List QueuedMessage) → Prop}
    (ha : ∀ cs qs m k, m ≤ k → I k cs qs → I m cs qs) (hI : I 8 p.cores p.queued)
    (hs : ∀ i, a.input p = some i → ∀ m cs l c', I (m + l.weight) cs p.queued →
      cs a.side.other = p.cores a.side.other → Step (Γ.ctx a.side) (cs a.side) l c' →
      CallLabel (Γ.ctx a.side) (p.node a.side) i l → (∀ opt data, l ≠ .enqueue opt data) →
      I m (update cs a.side c') p.queued)
    (he : ∀ data opt e, a.input p = some ⟨.send data opt, e⟩ → ∀ c',
      Step (Γ.ctx a.side) (p.cores a.side) (.enqueue opt data) c' →
      I 0 (update p.cores a.side c') (update p.queued a.side (p.queued a.side ++
        [⟨opt, data, (p.cores a.side).nextMessage, (p.cores a.side).cursor opt.channel⟩]))) :
    I 0 (pairStep Γ p a).cores (pairStep Γ p a).queued := by
  unfold pairStep
  split
  · exact ha _ _ 0 8 (Nat.zero_le 8) hI
  rename_i i hi
  rw [Pair.cores_update]
  by_cases hc : ∃ data opt, i.call = .send data opt
  · obtain ⟨data, opt, hc⟩ := hc
    obtain ⟨call, e⟩ := i
    obtain rfl : call = .send data opt := hc
    rcases sendConnectionMessage_cases (rfl : sendConnectionMessage (Γ.ctx a.side) e (p.node a.side) data opt = _) with
      ⟨hcd, -, -, -, hq⟩ | ⟨hcd, hcr⟩
    · simp only [queuedBy, hcd, if_true]
      exact he data opt e hi _ hq
    · -- a message that is refused leaves both the core and the history as they were
      have hc' : core (step (Γ.ctx a.side) (p.node a.side) ⟨.send data opt, e⟩) = p.cores a.side := hcr
      simp only [queuedBy, hcd, if_false, toList_none, List.append_nil, update_eq_self]
      rw [hc', update_eq_self]
      exact ha _ _ 0 8 (Nat.zero_le 8) hI
  · push Not at hc
    rw [queuedBy_eq_none hc, toList_none, List.append_nil, update_eq_self]
    refine (performs_step (Γ.ctx a.side) (p.node a.side) i).budget
      (I := fun m c => I m (update p.cores a.side c) p.queued) (fun c m k hmk h => ha _ _ m k hmk h)
      (fun c l c' m hs1 hl h => ?_) ?_
    · have hnx := hs i hi m (update p.cores a.side c) l c' h (update_of_ne (Side.other_ne _) _ _) (by rwa [update_self]) hl ?_
      · rwa [update_idem] at hnx
      · rintro opt data rfl
        exact CallLabel.not_enqueue hc hl
    · rw [show core (p.node a.side) = p.cores a.side from rfl, update_eq_self]
      exact hI

/-- What a pair keeps through an action. -/
theorem pairStep_invariant {I : (Side → Core) → (Side → List QueuedMessage) → Prop} (hI : I p.cores p.queued)
    (hs : ∀ i, a.input p = some i → ∀ cs l c', I cs p.queued → cs a.side.other = p.cores a.side.other →
      Step (Γ.ctx a.side) (cs a.side) l c' → CallLabel (Γ.ctx a.side) (p.node a.side) i l →
      (∀ opt data, l ≠ .enqueue opt data) → I (update cs a.side c') p.queued)
    (he : ∀ data opt e, a.input p = some ⟨.send data opt, e⟩ → ∀ c',
      Step (Γ.ctx a.side) (p.cores a.side) (.enqueue opt data) c' →
      I (update p.cores a.side c') (update p.queued a.side (p.queued a.side ++
        [⟨opt, data, (p.cores a.side).nextMessage, (p.cores a.side).cursor opt.channel⟩]))) :
    I (pairStep Γ p a).cores (pairStep Γ p a).queued :=
  pairStep_budget (I := fun _ => I) (fun _ _ _ _ _ h => h) hI (fun i hi _ => hs i hi) he

end Invariants

/-! ## A pair to run -/

/-- Two transports with encryption and the same configuration. -/
def securePairCtx : PairCtx := ⟨symbolicBackend, fun _ => defaultConfig⟩

/-- Two connections that were just established on them. -/
def securePair : Pair where
  node _ := secureNode

end Libft.Networking
