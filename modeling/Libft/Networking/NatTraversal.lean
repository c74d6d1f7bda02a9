import Libft.Networking.Defs

/-!
# NAT traversal

The traversal object of `networking_nat_traversal.cpp`: local candidates, the candidates of a verified peer ticket, the probes that
are sent to their pairs, and the pair that is selected. What the candidate provider, the ticket verifier, the probe socket, the
relay service and the allocator answer is part of a call. A container is the list of its elements; that of the traversal object is
initialised exactly while the object is, so the flag for it is left out.
-/

namespace Libft.Networking

/-- `sizeof(sockaddr_storage)`. -/
abbrev addressSize : Nat := 128

/-- `networking_message_endpoint` with its whole storage, of which the address family is a part whatever the length. -/
structure NatEndpoint where
  address : Vector UInt8 addressSize := Vector.replicate addressSize 0
  length : Nat := 0
  deriving DecidableEq, Repr

/-- `address.ss_family`: the first two bytes of the storage. -/
def NatEndpoint.family (e : NatEndpoint) : Nat := e.address[0].toNat + 256 * e.address[1].toNat

/-- `AF_INET`. -/
def afInet : Nat := 2

/-- `AF_INET6`. -/
def afInet6 : Nat := 10

/-- The bytes of the address that a length covers, which are those that `ft_memcmp` compares. -/
def NatEndpoint.covered (e : NatEndpoint) : Bytes := e.address.toList.take e.length

/-- Two endpoints are compared by their lengths and by the bytes these cover. -/
def NatEndpoint.same (a b : NatEndpoint) : Bool := a.length == b.length && a.covered == b.covered

/-- `networking_nat_candidate_type`. -/
inductive NatCandidateType where
  | host | serverReflexive | relay
  deriving DecidableEq, Repr

/-- `networking_nat_candidate`. -/
structure NatCandidate where
  endpoint : NatEndpoint := {}
  type : NatCandidateType := .host
  priority : UInt32 := 0
  component : UInt32 := 1
  foundation : UInt64 := 0
  measuredRttMilliseconds : UInt32 := 0
  deriving DecidableEq, Repr

/-- The check that candidates of a provider and of a ticket have to pass. -/
def NatCandidate.valid (c : NatCandidate) : Bool :=
  c.endpoint.length != 0 && c.endpoint.length ≤ addressSize && c.component != 0

/-- `networking_nat_peer_ticket`, without the tie breaker, which nothing reads. -/
structure NatPeerTicket where
  initialised : Bool
  peerId : UInt64
  attemptId : UInt64
  expiresAt : UInt64
  candidates : List NatCandidate
  signature : Bytes
  deriving DecidableEq, Repr

/-- `networking_nat_traversal`. -/
structure NatTraversal where
  initialised : Bool := false
  localPeerId : UInt64 := 0
  remotePeerId : UInt64 := 0
  attemptId : UInt64 := 0
  startedAt : UInt64 := 0
  deadlineMilliseconds : UInt32 := 0
  directPathValid : Bool := false
  relayAvailable : Bool := false
  usingRelay : Bool := false
  probing : Bool := false
  nextLocalProbe : Nat := 0
  nextRemoteProbe : Nat := 0
  probeCount : UInt64 := 0
  lastProbeAt : UInt64 := 0
  localCandidates : List NatCandidate := []
  remoteCandidates : List NatCandidate := []
  selectedLocal : NatCandidate := {}
  selectedRemote : NatCandidate := {}
  deriving DecidableEq, Repr

/-- A probe, as `send_probe` is given it. -/
structure NatProbe where
  localEndpoint : NatEndpoint
  remoteEndpoint : NatEndpoint
  attemptId : UInt64
  deriving DecidableEq, Repr

namespace NatTraversal

/-- `initialize`. The selected pair is left as it is. -/
def initialise (t : NatTraversal) (localPeerId : UInt64) (deadlineMilliseconds : UInt32) : NatTraversal × FtError :=
  if t.initialised then (t, .alreadyInitialised)
  else if localPeerId = 0 ∨ deadlineMilliseconds = 0 then (t, .invalidArgument)
  else
    ({ initialised := true, localPeerId, deadlineMilliseconds
       selectedLocal := t.selectedLocal, selectedRemote := t.selectedRemote }, .success)

/-- `destroy`. The identifier of the attempt, the times and the selected pair are left as they are. -/
def destroy (t : NatTraversal) : NatTraversal × FtError :=
  if !t.initialised then (t, .success)
  else
    ({ t with
       initialised := false, localCandidates := [], remoteCandidates := [], directPathValid := false, remotePeerId := 0
       relayAvailable := false, usingRelay := false, probing := false, nextLocalProbe := 0, nextRemoteProbe := 0
       probeCount := 0, lastProbeAt := 0 }, .success)

/-- `add_local_candidate`. The length of the endpoint has no upper bound here. -/
def addLocalCandidate (t : NatTraversal) (candidate : NatCandidate) (memory : Bool) : NatTraversal × FtError :=
  if !t.initialised then (t, .notInitialised)
  else if candidate.endpoint.length = 0 ∨ candidate.component = 0 then (t, .invalidArgument)
  else if !memory then (t, .noMemory)
  else ({ t with localCandidates := t.localCandidates ++ [candidate] }, .success)

/-- `gather_candidates`, with the candidates that the provider adds and the code it returns. -/
def gatherCandidates (t : NatTraversal) (gathered : List NatCandidate) (result : FtError) : NatTraversal × FtError :=
  if !t.initialised then (t, .notInitialised)
  else if result ≠ .success then ({ t with localCandidates := gathered }, result)
  else if gathered.all NatCandidate.valid then ({ t with localCandidates := gathered }, .success)
  else ({ t with localCandidates := [] }, .invalidArgument)

/-- The sum of two round trip times, which does not wrap. -/
def combinedRtt (localRtt remoteRtt : UInt32) : UInt32 :=
  if localRtt + remoteRtt < localRtt then 0xffffffff else localRtt + remoteRtt

/-- `candidate_score`. No sum leaves the range of the source's `int32_t`. -/
def candidateScore (localCandidate remoteCandidate : NatCandidate) : Int :=
  ((localCandidate.priority / 100 + remoteCandidate.priority / 100).toNat : Int)
    - (if localCandidate.type = .relay ∨ remoteCandidate.type = .relay then 1000 else 0)
    + (if localCandidate.type = .host ∧ remoteCandidate.type = .host then 100 else 0)
    + (if localCandidate.endpoint.family = afInet6 ∧ remoteCandidate.endpoint.family = afInet6 then 50
       else if localCandidate.endpoint.family = afInet ∧ remoteCandidate.endpoint.family = afInet then 20
       else 0)
    + (if localCandidate.measuredRttMilliseconds ≠ 0 ∧ remoteCandidate.measuredRttMilliseconds ≠ 0 then
        if combinedRtt localCandidate.measuredRttMilliseconds remoteCandidate.measuredRttMilliseconds < 1000 then
          1000 - ((combinedRtt localCandidate.measuredRttMilliseconds remoteCandidate.measuredRttMilliseconds).toNat : Int)
        else 0
       else 0)

/-- The pairs of candidates in the order of the two nested loops. -/
def pairs (t : NatTraversal) : List (NatCandidate × NatCandidate) :=
  t.localCandidates.flatMap fun localCandidate => t.remoteCandidates.map fun remoteCandidate => (localCandidate, remoteCandidate)

/-- One turn of the loops of `select_pair`: a pair is taken if it is the first one, or better than the best so far. -/
def selectStep (best : Option (NatCandidate × NatCandidate)) (pair : NatCandidate × NatCandidate) :
    Option (NatCandidate × NatCandidate) :=
  match best with
  | none => some pair
  | some b => if candidateScore b.1 b.2 < candidateScore pair.1 pair.2 then some pair else some b

/-- `select_pair`. -/
def selectPair (t : NatTraversal) : NatTraversal × FtError :=
  match t.pairs.foldl selectStep none with
  | none => (t, .notFound)
  | some pair => ({ t with selectedLocal := pair.1, selectedRemote := pair.2 }, .success)

/-- `set_peer_ticket` without a verifier, which the source does not support. -/
def setPeerTicketUnverified (t : NatTraversal) (_ticket : NatPeerTicket) (_now : UInt64) : NatTraversal × FtError :=
  (t, .unsupportedType)

/-- The loop of `set_peer_ticket` over the candidates of the ticket, from an index on: the first candidate that is invalid or
that finds no memory gives the error. -/
def checkCandidates (memory : Nat → Bool) : Nat → List NatCandidate → FtError
  | _, [] => .success
  | index, candidate :: rest =>
    if !candidate.valid then .invalidArgument
    else if !memory index then .noMemory
    else checkCandidates memory (index + 1) rest

/-- `set_peer_ticket`, with the answer of the verifier. It leaves the flag of the direct path as it is. -/
def setPeerTicket (t : NatTraversal) (ticket : NatPeerTicket) (now : UInt64) (verified : Bool) (memory : Nat → Bool) :
    NatTraversal × FtError :=
  if !verified then (t, .permissionDenied)
  else if !t.initialised then (t, .notInitialised)
  else if !ticket.initialised ∨ ticket.peerId = 0 ∨ ticket.attemptId = 0 ∨ ticket.expiresAt ≤ now ∨ ticket.signature = [] then
    (t, .permissionDenied)
  else if checkCandidates memory 0 ticket.candidates ≠ .success then (t, checkCandidates memory 0 ticket.candidates)
  else
    selectPair { t with
      remoteCandidates := ticket.candidates, attemptId := ticket.attemptId, remotePeerId := ticket.peerId
      relayAvailable := ticket.candidates.any fun c => c.type == .relay
      usingRelay := false }

/-- The first thing a turn of the loop of `probe_batch` does: past the last local candidate, it goes on to the next remote one. -/
def wrapProbe (t : NatTraversal) : NatTraversal :=
  if t.localCandidates.length ≤ t.nextLocalProbe then
    { t with nextLocalProbe := 0, nextRemoteProbe := t.nextRemoteProbe + 1 }
  else t

/-- The probe that is next. A read past the end of a list gives the container's default candidate. -/
def nextProbe (t : NatTraversal) : NatProbe where
  localEndpoint := (t.localCandidates.getD t.nextLocalProbe {}).endpoint
  remoteEndpoint := (t.remoteCandidates.getD t.nextRemoteProbe {}).endpoint
  attemptId := t.attemptId

/-- What a probe that was sent changes. -/
def countProbe (t : NatTraversal) (now : UInt64) : NatTraversal :=
  { t with nextLocalProbe := t.nextLocalProbe + 1, probeCount := t.probeCount + 1, lastProbeAt := now }

/-- The loop of `probe_batch`, for a number of probes that may still be sent: the traversal, the probes that were sent, and
whether the socket refused one. `sends` tells whether it takes the probe with a number. -/
def probeLoop (now : UInt64) (sends : Nat → Bool) : Nat → Nat → NatTraversal → NatTraversal × List NatProbe × Bool
  | 0, _, t => (t, [], false)
  | left + 1, sent, t =>
    if t.wrapProbe.remoteCandidates.length ≤ t.wrapProbe.nextRemoteProbe then (t.wrapProbe, [], false)
    else if !sends sent then (t.wrapProbe, [], true)
    else
      match probeLoop now sends left (sent + 1) (t.wrapProbe.countProbe now) with
      | (t', probes, refused) => (t', t.wrapProbe.nextProbe :: probes, refused)

/-- `probe_batch`, with the probes that were sent. -/
def probeBatch (t : NatTraversal) (now : UInt64) (minimumInterval maximumProbes : UInt32) (sends : Nat → Bool) :
    NatTraversal × List NatProbe × FtError :=
  if !t.initialised then (t, [], .notInitialised)
  else if t.attemptId = 0 ∨ !t.probing ∨ maximumProbes = 0 then (t, [], .invalidArgument)
  else if t.probeCount ≠ 0 ∧ now < t.lastProbeAt then (t, [], .timeout)
  else if t.probeCount ≠ 0 ∧ now - t.lastProbeAt < minimumInterval.toUInt64 then (t, [], .timeout)
  else
    match probeLoop now sends maximumProbes.toNat 0 t with
    | (t', probes, refused) =>
      (t', probes, if refused then .socketSendFailed else if probes = [] then .notFound else .success)

/-- `probe_next`. -/
def probeNext (t : NatTraversal) (now : UInt64) (minimumInterval : UInt32) (sends : Nat → Bool) :
    NatTraversal × List NatProbe × FtError :=
  t.probeBatch now minimumInterval 1 sends

/-- `begin`. It selects a pair, and leaves the flag of the direct path as it is. -/
def begin (t : NatTraversal) (now : UInt64) (sends : Nat → Bool) : NatTraversal × List NatProbe × FtError :=
  if !t.initialised then (t, [], .notInitialised)
  else if t.attemptId = 0 then (t, [], .invalidState)
  else if t.selectPair.2 ≠ .success then (t.selectPair.1, [], .invalidState)
  else
    { t.selectPair.1 with
      startedAt := now, probing := true, nextLocalProbe := 0, nextRemoteProbe := 0, probeCount := 0 }.probeNext now 0 sends

/-- `needs_relay`. -/
def needsRelay (t : NatTraversal) (now : UInt64) : Bool :=
  if t.directPathValid || t.usingRelay then false
  else if !t.probing || now < t.startedAt || now - t.startedAt < t.deadlineMilliseconds.toUInt64 then false
  else t.relayAvailable

/-- `fallback_to_relay`, with the code and the endpoint that opening the relay gives. -/
def fallbackToRelay (t : NatTraversal) (now : UInt64) (result : FtError) (relayEndpoint : NatEndpoint) :
    NatTraversal × FtError :=
  if !t.initialised then (t, .notInitialised)
  else if t.directPathValid then (t, .invalidState)
  else if !t.needsRelay now ∨ t.remotePeerId = 0 then (t, .notFound)
  else if result ≠ .success then (t, result)
  else if relayEndpoint.length = 0 ∨ addressSize < relayEndpoint.length then (t, .invalidArgument)
  else
    ({ t with
       selectedRemote := { t.selectedRemote with endpoint := relayEndpoint, type := .relay }
       usingRelay := true, relayAvailable := true }, .success)

/-- One turn of the loops of `mark_probe_success`: the last pair with the two endpoints is the one that is kept. -/
def confirmStep (localEndpoint remoteEndpoint : NatEndpoint) (found : Option (NatCandidate × NatCandidate))
    (pair : NatCandidate × NatCandidate) : Option (NatCandidate × NatCandidate) :=
  if pair.1.endpoint.same localEndpoint && pair.2.endpoint.same remoteEndpoint then some pair else found

/-- `mark_probe_success`. -/
def markProbeSuccess (t : NatTraversal) (localEndpoint remoteEndpoint : NatEndpoint) (attemptId : UInt64) : NatTraversal × FtError :=
  if !t.initialised then (t, .notInitialised)
  else if localEndpoint.length = 0 ∨ remoteEndpoint.length = 0 ∨ attemptId = 0 then (t, .invalidArgument)
  else if attemptId ≠ t.attemptId then (t, .permissionDenied)
  else
    match t.pairs.foldl (confirmStep localEndpoint remoteEndpoint) none with
    | none => (t, .notFound)
    | some pair =>
      ({ t with
         selectedLocal := pair.1, selectedRemote := pair.2, directPathValid := true, probing := false
         usingRelay := false }, .success)

/-- `has_direct_path`. -/
def hasDirectPath (t : NatTraversal) : Bool := t.directPathValid

end NatTraversal

end Libft.Networking
