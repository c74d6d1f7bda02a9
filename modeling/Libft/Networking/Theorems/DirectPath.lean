import Libft.Lib.Run
import Libft.Networking.NatTraversal

/-!
# The direct path of a NAT traversal

`has_direct_path` is to report a pair of candidates that answered a probe of the current attempt. The pair is selected, the attempt
is replaced and the path is confirmed by different calls, so a run keeps the probe successes it was given beside the traversal
object. A ticket and a `begin` select a pair again and do not take the path back: the path is what it should be in every run that
makes these two calls only while there is none.
-/

namespace Libft.Networking

open NatTraversal

/-- A call on the traversal object, with what the environment answers it. -/
inductive NatCall where
  | initialise (localPeerId : UInt64) (deadlineMilliseconds : UInt32)
  | destroy
  | addLocalCandidate (candidate : NatCandidate) (memory : Bool)
  | gatherCandidates (gathered : List NatCandidate) (result : FtError)
  | setPeerTicketUnverified (ticket : NatPeerTicket) (now : UInt64)
  | setPeerTicket (ticket : NatPeerTicket) (now : UInt64) (verified : Bool) (memory : Nat → Bool)
  | begin (now : UInt64) (sends : Nat → Bool)
  | probeNext (now : UInt64) (minimumInterval : UInt32) (sends : Nat → Bool)
  | probeBatch (now : UInt64) (minimumInterval maximumProbes : UInt32) (sends : Nat → Bool)
  | fallbackToRelay (now : UInt64) (result : FtError) (relayEndpoint : NatEndpoint)
  | markProbeSuccess (localEndpoint remoteEndpoint : NatEndpoint) (attemptId : UInt64)

/-- The traversal object after a call, and the code the call returns. -/
def NatTraversal.call (t : NatTraversal) : NatCall → NatTraversal × FtError
  | .initialise localPeerId deadline => t.initialise localPeerId deadline
  | .destroy => t.destroy
  | .addLocalCandidate candidate memory => t.addLocalCandidate candidate memory
  | .gatherCandidates gathered result => t.gatherCandidates gathered result
  | .setPeerTicketUnverified ticket now => t.setPeerTicketUnverified ticket now
  | .setPeerTicket ticket now verified memory => t.setPeerTicket ticket now verified memory
  | .begin now sends => ((t.begin now sends).1, (t.begin now sends).2.2)
  | .probeNext now interval sends => ((t.probeNext now interval sends).1, (t.probeNext now interval sends).2.2)
  | .probeBatch now interval maximum sends =>
    ((t.probeBatch now interval maximum sends).1, (t.probeBatch now interval maximum sends).2.2)
  | .fallbackToRelay now result relayEndpoint => t.fallbackToRelay now result relayEndpoint
  | .markProbeSuccess localEndpoint remoteEndpoint attemptId => t.markProbeSuccess localEndpoint remoteEndpoint attemptId

/-- The probe success a call reports, if it is one. -/
def NatCall.success? : NatCall → Option NatProbe
  | .markProbeSuccess localEndpoint remoteEndpoint attemptId => some { localEndpoint, remoteEndpoint, attemptId }
  | _ => none

/-- A traversal object and the probe successes it has accepted. -/
structure NatRun where
  traversal : NatTraversal := {}
  confirmed : List NatProbe := []
  deriving DecidableEq

/-- A call on the object of a run. -/
def NatRun.step (s : NatRun) (c : NatCall) : NatRun where
  traversal := (s.traversal.call c).1
  confirmed := if (s.traversal.call c).2 = .success then s.confirmed ++ c.success?.toList else s.confirmed

/-- The selected pair was confirmed by a probe success of the current attempt. -/
def NatRun.Confirmed (s : NatRun) : Prop :=
  ∃ p ∈ s.confirmed, p.attemptId = s.traversal.attemptId ∧
    s.traversal.selectedLocal.endpoint.same p.localEndpoint ∧ s.traversal.selectedRemote.endpoint.same p.remoteEndpoint

instance NatRun.decidableConfirmed (s : NatRun) : Decidable s.Confirmed :=
  inferInstanceAs (Decidable (∃ p ∈ s.confirmed, _))

/-- A ticket is replaced, and probing begun, only while there is no direct path. -/
def NatRun.OnlyWithoutPath (s : NatRun) : NatCall → Prop
  | .setPeerTicket .. | .begin .. => s.traversal.hasDirectPath = false
  | _ => True

instance NatRun.decidableOnlyWithoutPath (s : NatRun) : ∀ c, Decidable (s.OnlyWithoutPath c)
  | .setPeerTicket .. | .begin .. => inferInstanceAs (Decidable (_ = _))
  | .initialise .. | .destroy | .addLocalCandidate .. | .gatherCandidates .. | .setPeerTicketUnverified .. | .probeNext ..
  | .probeBatch .. | .fallbackToRelay .. | .markProbeSuccess .. => .isTrue trivial

/-- Two traversal objects with the same path: the flag, the attempt and the selected pair. -/
structure NatTraversal.SamePath (t t' : NatTraversal) : Prop where
  valid : t'.directPathValid = t.directPathValid
  attempt : t'.attemptId = t.attemptId
  selectedLocal : t'.selectedLocal = t.selectedLocal
  selectedRemote : t'.selectedRemote = t.selectedRemote

namespace NatTraversal

variable {t t' t'' : NatTraversal}

theorem SamePath.refl (t : NatTraversal) : SamePath t t := ⟨rfl, rfl, rfl, rfl⟩

theorem SamePath.trans (h : SamePath t t') (h' : SamePath t' t'') : SamePath t t'' :=
  ⟨h'.valid.trans h.valid, h'.attempt.trans h.attempt, h'.selectedLocal.trans h.selectedLocal,
    h'.selectedRemote.trans h.selectedRemote⟩

theorem samePath_addLocalCandidate (t : NatTraversal) (c : NatCandidate) (memory : Bool) : SamePath t (t.addLocalCandidate c memory).1 := by
  unfold addLocalCandidate
  split_ifs <;> exact ⟨rfl, rfl, rfl, rfl⟩

theorem samePath_gatherCandidates (t : NatTraversal) (gat : List NatCandidate) (res : FtError) :
    SamePath t (t.gatherCandidates gat res).1 := by
  unfold gatherCandidates
  split_ifs <;> exact ⟨rfl, rfl, rfl, rfl⟩

theorem samePath_wrapProbe (t : NatTraversal) : SamePath t t.wrapProbe := by
  unfold wrapProbe
  split_ifs <;> exact ⟨rfl, rfl, rfl, rfl⟩

/-- The loop of a batch moves the cursors and counts. -/
theorem samePath_probeLoop (now : UInt64) (sends : Nat → Bool) (left sent : Nat) (t : NatTraversal) :
    SamePath t (probeLoop now sends left sent t).1 := by
  induction left generalizing sent t with
  | zero => exact .refl t
  | succ left ih =>
    have hw := samePath_wrapProbe t
    unfold probeLoop
    split_ifs with hd hr
    · exact hw
    · exact hw
    · have hc : SamePath t.wrapProbe (t.wrapProbe.countProbe now) := ⟨rfl, rfl, rfl, rfl⟩
      exact (hw.trans hc).trans (ih (sent + 1) (t.wrapProbe.countProbe now))

theorem samePath_probeBatch (t : NatTraversal) (now : UInt64) (int maximum : UInt32) (sends : Nat → Bool) :
    SamePath t (t.probeBatch now int maximum sends).1 := by
  unfold probeBatch
  split_ifs
  iterate 4 exact .refl t
  exact samePath_probeLoop now sends maximum.toNat 0 t

theorem samePath_probeNext (t : NatTraversal) (now : UInt64) (int : UInt32) (sends : Nat → Bool) :
    SamePath t (t.probeNext now int sends).1 :=
  samePath_probeBatch t now int 1 sends

/-- A selection changes the selected pair and nothing else of the path. -/
theorem selectPair_valid (t : NatTraversal) : t.selectPair.1.directPathValid = t.directPathValid := by
  unfold selectPair
  cases t.pairs.foldl selectStep none <;> rfl

theorem setPeerTicket_valid (t : NatTraversal) (ticket : NatPeerTicket) (now : UInt64) (ver : Bool)
    (memory : Nat → Bool) : (t.setPeerTicket ticket now ver memory).1.directPathValid = t.directPathValid := by
  unfold setPeerTicket
  split_ifs
  iterate 4 rfl
  exact selectPair_valid _

theorem begin_valid (t : NatTraversal) (now : UInt64) (sends : Nat → Bool) : (t.begin now sends).1.directPathValid = t.directPathValid := by
  unfold begin
  split_ifs
  iterate 2 rfl
  · exact selectPair_valid t
  · exact (samePath_probeNext _ now 0 sends).valid.trans (selectPair_valid t)

/-- A traversal that falls back to a relay has no direct path, and gets none. -/
theorem fallbackToRelay_samePath (t : NatTraversal) (now : UInt64) (res : FtError) (re : NatEndpoint) :
    SamePath t (t.fallbackToRelay now res re).1 ∨
      (t.fallbackToRelay now res re).1.directPathValid = false := by
  unfold fallbackToRelay
  split_ifs with hi hv
  iterate 5 exact .inl (.refl t)
  exact .inr (by simpa using hv)

/-- The pair that the loops of `mark_probe_success` keep has the two endpoints. -/
theorem same_of_confirmStep {lce re : NatEndpoint} {pair : NatCandidate × NatCandidate}
    (pairs : List (NatCandidate × NatCandidate)) (h : pairs.foldl (confirmStep lce re) none = some pair) :
    pair.1.endpoint.same lce ∧ pair.2.endpoint.same re := by
  -- The pair that is kept so far has them, whatever is left of the loop.
  suffices hloop : ∀ found : Option (NatCandidate × NatCandidate),
      (∀ p, found = some p → p.1.endpoint.same lce ∧ p.2.endpoint.same re) →
      pairs.foldl (confirmStep lce re) found = some pair →
      pair.1.endpoint.same lce ∧ pair.2.endpoint.same re from
    hloop none (fun p hp => by cases hp) h
  clear h
  induction pairs with
  | nil => exact fun found hf h => hf pair h
  | cons p tl ih =>
    intro found hf h
    refine ih (confirmStep lce re found p) (fun q hq => ?_) h
    unfold confirmStep at hq
    split_ifs at hq with hs
    · obtain rfl := Option.some.inj hq
      simpa using hs
    · exact hf q hq

/-- A probe success that is accepted carries the current attempt and selects a pair with its endpoints; one that is refused
changes nothing. -/
theorem markProbeSuccess_cases (t : NatTraversal) (lce re : NatEndpoint) (ai : UInt64) :
    (t.markProbeSuccess lce re ai).2 ≠ .success ∧
        (t.markProbeSuccess lce re ai).1 = t ∨
      (t.markProbeSuccess lce re ai).2 = .success ∧
        ai = (t.markProbeSuccess lce re ai).1.attemptId ∧
        (t.markProbeSuccess lce re ai).1.selectedLocal.endpoint.same lce ∧
        (t.markProbeSuccess lce re ai).1.selectedRemote.endpoint.same re := by
  unfold markProbeSuccess
  split_ifs with hi har ha
  · exact .inl ⟨by simp, rfl⟩
  · exact .inl ⟨by simp, rfl⟩
  · exact .inl ⟨by simp, rfl⟩
  · cases hp : t.pairs.foldl (confirmStep lce re) none with
    | none => exact .inl ⟨by simp, rfl⟩
    | some pair =>
      obtain ⟨hl, hr⟩ := same_of_confirmStep t.pairs hp
      exact .inr ⟨rfl, Decidable.not_not.1 ha, hl, hr⟩

end NatTraversal

namespace NatRun

/-- A run forgets no probe success. -/
theorem confirmed_subset_step (s : NatRun) (c : NatCall) : s.confirmed ⊆ (s.step c).confirmed := by
  unfold step
  split_ifs
  · exact List.subset_append_left _ _
  · exact List.Subset.refl _

/-- A run that has the path it had, of an object with the same path, has it still. -/
theorem confirmed_of_samePath {s s' : NatRun} (hpt : s.traversal.SamePath s'.traversal) (hs : s.confirmed ⊆ s'.confirmed)
    (h : s.traversal.hasDirectPath = true → s.Confirmed) : s'.traversal.hasDirectPath = true → s'.Confirmed := by
  intro hv
  obtain ⟨p, hp, ha, hl, hr⟩ := h (hpt.valid.symm.trans hv)
  refine ⟨p, hs hp, ha.trans hpt.attempt.symm, ?_, ?_⟩
  · rwa [hpt.selectedLocal]
  · rwa [hpt.selectedRemote]

/-- Every call that is made as it should be keeps the path a confirmed one. -/
theorem confirmed_step (s : NatRun) (c : NatCall) (h : s.traversal.hasDirectPath = true → s.Confirmed)
    (hc : s.OnlyWithoutPath c) : (s.step c).traversal.hasDirectPath = true → (s.step c).Confirmed := by
  -- A call either leaves the path alone, or ends without one, or is a probe success that is accepted.
  have hs (hp : s.traversal.SamePath (s.traversal.call c).1) :
      (s.step c).traversal.hasDirectPath = true → (s.step c).Confirmed :=
    confirmed_of_samePath hp (s.confirmed_subset_step c) h
  have hno (hv : (s.traversal.call c).1.directPathValid = false) :
      (s.step c).traversal.hasDirectPath = true → (s.step c).Confirmed := by
    intro ht
    rw [show (s.step c).traversal.hasDirectPath = false from hv] at ht
    cases ht
  cases c with
  | initialise lpi d =>
    by_cases hr : s.traversal.initialised ∨ lpi = 0 ∨ d = 0
    · refine hs ?_
      have hcl : (s.traversal.initialise lpi d).1 = s.traversal := by
        unfold initialise
        split_ifs with hi ha
        · rfl
        · rfl
        · exact (hr.elim hi ha).elim
      show s.traversal.SamePath (s.traversal.initialise lpi d).1
      rw [hcl]
      exact .refl _
    · obtain ⟨hi, ha⟩ := not_or.1 hr
      refine hno ?_
      show (s.traversal.initialise lpi d).1.directPathValid = false
      unfold initialise
      rw [if_neg hi, if_neg ha]
  | destroy =>
    by_cases hi : s.traversal.initialised
    · refine hno ?_
      show s.traversal.destroy.1.directPathValid = false
      simp [destroy, hi]
    · refine hs ?_
      show s.traversal.SamePath s.traversal.destroy.1
      simp [destroy, hi, NatTraversal.SamePath.refl]
  | addLocalCandidate cn m => exact hs (s.traversal.samePath_addLocalCandidate cn m)
  | gatherCandidates g r => exact hs (s.traversal.samePath_gatherCandidates g r)
  | setPeerTicketUnverified ticket now => exact hs (.refl s.traversal)
  | setPeerTicket ticket now v m =>
    exact hno ((s.traversal.setPeerTicket_valid ticket now v m).trans hc)
  | begin now sends => exact hno ((s.traversal.begin_valid now sends).trans hc)
  | probeNext now i sends => exact hs (s.traversal.samePath_probeNext now i sends)
  | probeBatch now i mx sends => exact hs (s.traversal.samePath_probeBatch now i mx sends)
  | fallbackToRelay now r rle =>
    exact (s.traversal.fallbackToRelay_samePath now r rle).elim hs hno
  | markProbeSuccess lce re ai =>
    rcases s.traversal.markProbeSuccess_cases lce re ai with
      ⟨-, heq⟩ | ⟨hsuc, hat, hl, hrm⟩
    · refine hs ?_
      show s.traversal.SamePath (s.traversal.markProbeSuccess lce re ai).1
      rw [heq]
      exact .refl _
    · intro _
      refine ⟨⟨lce, re, ai⟩, ?_, hat, hl, hrm⟩
      show _ ∈ if (s.traversal.markProbeSuccess lce re ai).2 = .success then _ else _
      rw [if_pos hsuc]
      simp [NatCall.success?]

end NatRun

/-- The direct path of a traversal object: in every run that replaces the ticket, and begins to probe, only while there is no
direct path, the object reports one only for a selected pair that a probe success confirmed under the current attempt. -/
theorem confirmed_of_onlyWithoutPath (calls : List NatCall) (hcalls : Meets NatRun.step NatRun.OnlyWithoutPath {} calls) :
    (calls.foldl NatRun.step {}).traversal.hasDirectPath = true → (calls.foldl NatRun.step {}).Confirmed :=
  hcalls.invariant NatRun.confirmed_step (I := fun s => s.traversal.hasDirectPath = true → s.Confirmed)
    (fun h => by cases h)

theorem addressSize_pos : 0 < addressSize := by decide

/-- An endpoint of the IPv4 family with a host number. -/
def hostEndpoint (host : UInt8) : NatEndpoint where
  address := ((Vector.replicate addressSize 0).set 0 2 addressSize_pos).set 7 host
  length := 16

/-- A host candidate with a priority. -/
def hostCandidate (host : UInt8) (priority : UInt32) : NatCandidate where
  endpoint := hostEndpoint host
  priority := priority

/-- A ticket of an attempt with some candidates. -/
def ticketOf (attemptId : UInt64) (candidates : List NatCandidate) : NatPeerTicket where
  initialised := true
  peerId := 9
  attemptId := attemptId
  expiresAt := 5000
  candidates := candidates
  signature := [1]

/-- A run that confirms the second of two candidates of the first attempt. -/
def confirmedCalls : List NatCall :=
  [.initialise 7 1000, .addLocalCandidate (hostCandidate 1 0) true,
    .setPeerTicket (ticketOf 1 [hostCandidate 2 500, hostCandidate 3 100]) 0 true (fun _ => true),
    .begin 10 (fun _ => true), .probeNext 20 5 (fun _ => true),
    .markProbeSuccess (hostEndpoint 1) (hostEndpoint 3) 1]

theorem confirmed_of_onlyWithoutPath_calls :
    Meets NatRun.step NatRun.OnlyWithoutPath {} confirmedCalls ∧
      (confirmedCalls.foldl NatRun.step {}).traversal.hasDirectPath = true ∧
      (confirmedCalls.foldl NatRun.step {}).Confirmed := by
  have hmt : Meets NatRun.step NatRun.OnlyWithoutPath {} confirmedCalls := by decide +kernel
  have hp : (confirmedCalls.foldl NatRun.step {}).traversal.hasDirectPath = true := by decide +kernel
  exact ⟨hmt, hp, confirmed_of_onlyWithoutPath confirmedCalls hmt hp⟩

/-- The run goes on with a ticket of another attempt. -/
def replacedTicketRun : NatRun :=
  (confirmedCalls ++ [NatCall.setPeerTicket (ticketOf 2 [hostCandidate 4 100]) 0 true (fun _ => true)]).foldl NatRun.step {}

/-- The run begins to probe again, which selects the candidate with the higher priority. -/
def begunAgainRun : NatRun :=
  (confirmedCalls ++ [NatCall.begin 30 (fun _ => true)]).foldl NatRun.step {}

/-- In both runs the path is still reported, for a pair that no probe success of the attempt confirmed. -/
theorem hasDirectPath_of_replaced_ticket :
    replacedTicketRun.traversal.hasDirectPath = true ∧ ¬replacedTicketRun.Confirmed ∧
      begunAgainRun.traversal.hasDirectPath = true ∧ ¬begunAgainRun.Confirmed := by
  decide +kernel

end Libft.Networking
