import Libft.Networking.Lemmas.Advances
import Libft.Networking.Lemmas.Processes
import Libft.Networking.SymbolicBackend

/-!
# Runs of a connection

A run is a list of inputs: a call, and what the system does during it. Every call is a sequence of steps of the machine, with labels
that its state before allows, so that what the steps keep, a run keeps.
-/

namespace Libft.Networking

/-- The calls that reach a connection: those of the application, the advance that `poll` and `flush` make, and a datagram that the
socket gave. -/
inductive Call where
  | send (data : Bytes) (options : SendOptions)
  | advance
  | poll
  | process (source : Endpoint) (data : Bytes)
  | close (reason : CloseReason) (debugText : Bytes) (abort : Bool)
  | requestKeyUpdate (nextEpoch : UInt64)
  | updateKeyEpoch (nextEpoch : UInt64)
  | configureLane (lane : UInt8) (priorityWeight reservedBandwidth : UInt32)
  | setQueueLimits (maximumQueuedBytes : UInt32)

/-- A call, with the time and what the system does during it. -/
structure Input where
  call : Call
  env : Env

/-- The calls that advance the connection. -/
def Call.advances : Call → Bool
  | .advance | .poll => true
  | _ => false

/-- The calls that abort the connection. -/
def Call.aborts : Call → Bool
  | .close _ _ abort => abort
  | _ => false

/-- One call. -/
def step (Γ : Ctx) (n : Node) (i : Input) : Node :=
  match i.call with
  | .send data options => (sendConnectionMessage Γ i.env n data options).1
  | .advance => (advanceConnection Γ i.env n).1
  | .poll => pollConnection Γ i.env n
  | .process source data => (processDatagram Γ i.env n source data).1
  | .close reason debugText abort => (closeConnection Γ i.env n reason debugText abort).1
  | .requestKeyUpdate nextEpoch => (requestConnectionKeyUpdate Γ i.env n nextEpoch).1
  | .updateKeyEpoch nextEpoch => (updateConnectionKeyEpoch Γ n nextEpoch).1
  | .configureLane lane priorityWeight reservedBandwidth =>
    (configureConnectionLane n lane priorityWeight reservedBandwidth).1
  | .setQueueLimits maximumQueuedBytes => (setConnectionQueueLimits n maximumQueuedBytes).1

/-- A run. -/
def run (Γ : Ctx) (n : Node) (inputs : List Input) : Node := inputs.foldl (step Γ) n

/-- What a call may do, in terms of the state before it. -/
def CallLabel (Γ : Ctx) (n : Node) (i : Input) (l : Label) : Prop :=
  match i.call with
  | .send data options => l = .enqueue options data
  | .advance | .poll => AdvanceLabel Γ i.env n l
  | .process source data => ProcessLabel Γ i.env n source data l
  | .close _ _ abort => Closes i.env n abort l
  | .requestKeyUpdate _ => Requests i.env l
  | .updateKeyEpoch _ => Rotates l
  | .configureLane .. => Configures l
  | .setQueueLimits _ => False

/-- Every call is a sequence of steps, with eight packets at most. -/
theorem performs_step (Γ : Ctx) (n : Node) (i : Input) : Performs Γ (CallLabel Γ n i) 8 n (step Γ n i) := by
  obtain ⟨call, e⟩ := i
  cases call with
  | send data o =>
    rcases sendConnectionMessage_cases (rfl : sendConnectionMessage Γ e n data o = _) with
      ⟨-, seq, -, -, hs⟩ | ⟨-, hc⟩
    · exact .single hs rfl rfl
    · exact .of_eq hc
  | advance => exact performs_advanceConnection
  | poll => exact performs_pollConnection
  | process s data => exact performs_processDatagram.le (by omega)
  | close r text abort => exact (performs_closeConnection r text abort).le (by omega)
  | requestKeyUpdate ep => exact (performs_requestConnectionKeyUpdate ep).le (by omega)
  | updateKeyEpoch ep => exact (performs_updateConnectionKeyEpoch ep).le (by omega)
  | configureLane lane w b =>
    exact (performs_configureConnectionLane lane w b).le (by omega)
  | setQueueLimits lim =>
    exact .of_eq (core_setConnectionQueueLimits n lim)

variable {Γ : Ctx} {n : Node}

/-- What the steps of acceptable calls keep holds after a run of acceptable calls. -/
theorem run_invariant {A : Node → Input → Prop} {Inv : Core → Prop}
    (hs : ∀ n i, A n i → ∀ c l c', Step Γ c l c' → CallLabel Γ n i l → Inv c → Inv c') {is : List Input}
    (hn : Inv (core n)) (hmt : Meets (step Γ) A n is) : Inv (core (run Γ n is)) :=
  Meets.invariant (I := fun n => Inv (core n)) (fun n i hInv hA => (performs_step Γ n i).invariant (hs n i hA) hInv) hn
    hmt

/-! ## Connections to run -/

/-- The configuration that a transport starts from. -/
def defaultConfig : TransportConfig := {}

/-- A transport without encryption, with the default limits. -/
def plainCtx : Ctx := ⟨symbolicBackend, { defaultConfig with enableEncryption := false }⟩

/-- A connection that was just established on such a transport. -/
def openNode : Node where
  connection :=
    { id := 7
      state := .connected
      remote := ⟨[1]⟩
      lastReceive := 1000
      maximumQueuedBytes := plainCtx.cfg.maximumQueuedBytes
      receiveFlowCredit := plainCtx.cfg.maximumReassemblyBytes.toNat }

/-- A transport with encryption, under the key that its configuration has. -/
def secureCtx : Ctx := ⟨symbolicBackend, defaultConfig⟩

/-- A connection that was just established on such a transport. -/
def secureNode : Node :=
  openNode.modify fun c => { c with
    secureEnabled := true
    secureChannel := { initialised := true } }

end Libft.Networking
