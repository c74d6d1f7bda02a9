import Libft.Networking.Theorems.DirectPath

/-!
# The probes of a NAT traversal

`begin` and the batches after it probe the pairs of candidates from two cursors that they leave behind. What the cursors have not come
to is a list (`unprobed`), and a batch takes what it sends from the front of it, so the batches send every pair once.
-/

namespace Libft.Networking

open List Nat

namespace NatTraversal

/-- The probes to a remote candidate. -/
def probesTo (t : NatTraversal) (remote : NatCandidate) : List NatProbe :=
  t.localCandidates.map fun candidate => ⟨candidate.endpoint, remote.endpoint, t.attemptId⟩

/-- One probe for each pair of candidates. -/
def allProbes (t : NatTraversal) : List NatProbe := t.remoteCandidates.flatMap t.probesTo

/-- The probes that the cursors have not come to. -/
def unprobed (t : NatTraversal) : List NatProbe :=
  ((t.remoteCandidates.drop t.nextRemoteProbe).flatMap t.probesTo).drop t.nextLocalProbe

/-- There is a local candidate, and the cursor is not past the place behind the last one. -/
def Ready (t : NatTraversal) : Prop := 0 < t.localCandidates.length ∧ t.nextLocalProbe ≤ t.localCandidates.length

variable {t : NatTraversal} {now : UInt64} {sends : ℕ → Bool}

theorem length_probesTo (remote : NatCandidate) : (t.probesTo remote).length = t.localCandidates.length := length_map _

theorem Ready.wrapProbe (h : t.Ready) :
    t.wrapProbe.nextLocalProbe < t.wrapProbe.localCandidates.length ∧ t.wrapProbe.unprobed = t.unprobed := by
  unfold NatTraversal.wrapProbe
  split
  · rename_i hp
    refine ⟨h.1, ?_⟩
    have he : t.nextLocalProbe = t.localCandidates.length := le_antisymm h.2 hp
    change (t.remoteCandidates.drop (t.nextRemoteProbe + 1)).flatMap t.probesTo = t.unprobed
    rw [unprobed, he, ← drop_drop]
    cases t.remoteCandidates.drop t.nextRemoteProbe with
    | nil => simp
    | cons r later => simp [length_probesTo]
  · rename_i hb
    exact ⟨not_le.1 hb, rfl⟩

/-- The probe that is sent is the first that the cursors have not come to. -/
theorem unprobed_countProbe (now : UInt64) (hl : t.nextLocalProbe < t.localCandidates.length)
    (hr : t.nextRemoteProbe < t.remoteCandidates.length) : t.unprobed = t.nextProbe :: (t.countProbe now).unprobed := by
  have hn : t.nextLocalProbe < ((t.remoteCandidates.drop t.nextRemoteProbe).flatMap t.probesTo).length := by
    rw [drop_eq_getElem_cons hr, flatMap_cons, length_append, length_probesTo]
    omega
  rw [unprobed, drop_eq_getElem_cons hn]
  congr 1
  simp only [drop_eq_getElem_cons hr, flatMap_cons]
  rw [getElem_append_left (by rwa [length_probesTo])]
  simp [probesTo, nextProbe, hl, hr]

theorem Ready.probeLoop {left : ℕ} : ∀ {sent : ℕ} {t t' : NatTraversal} {probes : List NatProbe}
    {refused : Bool}, t.Ready → probeLoop now sends left sent t = (t', probes, refused) →
    t'.Ready ∧ t.unprobed = probes ++ t'.unprobed ∧ (left ≠ 0 → probes = [] → refused = false → t.unprobed = []) := by
  induction left with
  | zero =>
    rintro _ _ _ _ _ h ⟨⟩
    exact ⟨h, rfl, fun hlf => absurd rfl hlf⟩
  | succ left ih =>
    intro sent t t' probes refused h ho
    obtain ⟨hl, hw⟩ := h.wrapProbe
    have hr : t.wrapProbe.Ready := ⟨zero_lt_of_lt hl, hl.le⟩
    unfold NatTraversal.probeLoop at ho
    split at ho
    · rename_i he
      cases ho
      have hno : t.wrapProbe.unprobed = [] := by simp [unprobed, drop_eq_nil_of_le he]
      exact ⟨hr, hw.symm, fun _ _ _ => hw ▸ hno⟩
    rename_i hrm
    split at ho
    · cases ho
      exact ⟨hr, hw.symm, by simp⟩
    · cases ho
      obtain ⟨hnx, hs, -⟩ := ih (t := t.wrapProbe.countProbe now) ⟨hr.1, hl⟩ rfl
      refine ⟨hnx, ?_, by simp⟩
      rw [← hw, unprobed_countProbe now hl (not_le.1 hrm), hs]
      rfl

/-- A call of `probe_batch`, with what the socket answers. -/
structure Batch where
  now : UInt64
  minimumInterval : UInt32
  maximumProbes : UInt32
  sends : ℕ → Bool

/-- The traversal after a batch, the probes that were sent and the code. -/
def probe (t : NatTraversal) (b : Batch) : NatTraversal × List NatProbe × FtError :=
  t.probeBatch b.now b.minimumInterval b.maximumProbes b.sends

/-- A batch takes its probes from the front of what is left, and reports that there is nothing to probe when nothing is. -/
theorem Ready.probe (h : t.Ready) (b : Batch) : (t.probe b).1.Ready ∧ t.unprobed = (t.probe b).2.1 ++ (t.probe b).1.unprobed ∧
    ((t.probe b).2.2 = .notFound → t.unprobed = []) := by
  generalize ho : t.probe b = out
  unfold NatTraversal.probe probeBatch at ho
  split at ho
  · subst ho
    exact ⟨h, rfl, nofun⟩
  split at ho
  · subst ho
    exact ⟨h, rfl, nofun⟩
  rename_i hcl
  split at ho
  · subst ho
    exact ⟨h, rfl, nofun⟩
  split at ho
  · subst ho
    exact ⟨h, rfl, nofun⟩
  split at ho
  rename_i t' p r hl
  subst ho
  obtain ⟨hr, hs, he⟩ := h.probeLoop hl
  refine ⟨hr, hs, fun hc => ?_⟩
  cases r with
  | true => cases hc
  | false =>
    by_cases hno : p = []
    · exact he (fun hz => hcl (.inr (.inr (UInt32.toNat_inj.1 hz)))) hno rfl
    · simp [hno] at hc

/-- The traversal after some batches, with the probes that were sent. -/
def probeAll (t : NatTraversal) : List Batch → NatTraversal × List NatProbe
  | [] => (t, [])
  | b :: rest => (((t.probe b).1.probeAll rest).1, (t.probe b).2.1 ++ ((t.probe b).1.probeAll rest).2)

theorem Ready.probeAll (h : t.Ready) (batches : List Batch) :
    (t.probeAll batches).1.Ready ∧ t.unprobed = (t.probeAll batches).2 ++ (t.probeAll batches).1.unprobed := by
  induction batches generalizing t with
  | nil => exact ⟨h, rfl⟩
  | cons b tl ih =>
    obtain ⟨hr, hs, -⟩ := h.probe b
    obtain ⟨hr', hs'⟩ := ih hr
    refine ⟨hr', ?_⟩
    rw [hs, hs', ← append_assoc]
    rfl

/-- A `begin` that gets to the probes has all of them before it. -/
theorem unprobed_begin {out : NatTraversal × List NatProbe × FtError}
    (ho : t.begin now sends = out) (hc : out.2.2 = .success ∨ out.2.2 = .socketSendFailed) :
    out.1.Ready ∧ t.allProbes = out.2.1 ++ out.1.unprobed := by
  unfold NatTraversal.begin at ho
  split at ho
  · subst ho
    simp at hc
  split at ho
  · subst ho
    simp at hc
  split at ho
  · subst ho
    simp at hc
  rename_i hs
  have hl : 0 < t.localCandidates.length := by
    refine length_pos_iff.2 fun hn => hs ?_
    simp [selectPair, pairs, hn] at hs
  have hsm : t.selectPair.1.localCandidates = t.localCandidates ∧ t.selectPair.1.allProbes = t.allProbes := by
    unfold selectPair
    split <;> exact ⟨rfl, rfl⟩
  have hst : Ready { t.selectPair.1 with
      startedAt := now, probing := true, nextLocalProbe := 0, nextRemoteProbe := 0, probeCount := 0 } :=
    ⟨hsm.1.symm ▸ hl, zero_le _⟩
  obtain ⟨hr, hsn, -⟩ := hst.probe ⟨now, 0, 1, sends⟩
  subst ho
  exact ⟨hr, hsm.2.symm.trans hsn⟩

/-- The probes of `begin` and of the batches after it are the first of a list with one probe for each pair of candidates, and all of
it when the next batch reports that nothing is left to probe. -/
theorem probed_once (t : NatTraversal) (now : UInt64) (sends : ℕ → Bool) (batches : List Batch)
    (hcode : (t.begin now sends).2.2 = .success ∨ (t.begin now sends).2.2 = .socketSendFailed) :
    let s := (t.begin now sends).1.probeAll batches
    (t.begin now sends).2.1 ++ s.2 <+: t.allProbes ∧
      ∀ b : Batch, (s.1.probe b).2.2 = .notFound → (t.begin now sends).2.1 ++ s.2 = t.allProbes := by
  obtain ⟨hr, hf⟩ := unprobed_begin rfl hcode
  obtain ⟨hr', hs⟩ := hr.probeAll batches
  rw [hs, ← append_assoc] at hf
  refine ⟨⟨_, hf.symm⟩, fun b he => ?_⟩
  rw [hf, (hr'.probe b).2.2 he, append_nil]

/-- Two candidates on either side, and four probes in three batches. -/
theorem probed_once_in_batches :
    let t : NatTraversal := {
      initialised := true
      attemptId := 1
      localCandidates := [hostCandidate 1 0, hostCandidate 2 0]
      remoteCandidates := [hostCandidate 3 0, hostCandidate 4 0] }
    (t.begin 10 fun _ => true).2.1 ++ ((t.begin 10 fun _ => true).1.probeAll
      [⟨20, 5, 2, fun _ => true⟩, ⟨30, 5, 9, fun _ => true⟩]).2 = t.allProbes := by
  intro t
  refine (probed_once t 10 (fun _ => true) _ (.inl ?_)).2 ⟨40, 5, 1, fun _ => true⟩ ?_
  · decide +kernel
  · decide +kernel

end NatTraversal

end Libft.Networking
