import Libft.Networking.Calls

/-!
# Changing the path

A connection follows its peer to another address only after it has challenged that address: the answer must carry the token of the
challenge that waits and come from the address it was sent to. The answer ends the challenge, so that the changes of a run are among
the challenges it made, in order and without repetition.
-/

namespace Libft.Networking

open List

/-- The challenge that waits for its answer, if there is one: the address it is sent to, and its token. -/
def Core.waiting (c : Core) : List (Endpoint × Bytes) := if c.pathPending = true then [(c.pendingPath, c.pathToken)] else []

/-- A datagram opens to the answer to the challenge that waits, and comes from the address that was challenged. -/
def AnswersChallenge (Γ : Ctx) (e : Env) (n : Node) (source : Endpoint) (data : Bytes) : Prop :=
  ∃ flag packet body, Opens Γ e n data .pathResponse flag packet ∧ readPath packet = some body ∧
    n.connection.pathValidationPending = true ∧ n.connection.pendingPath = source ∧ n.connection.pendingPathToken = body.token

section Call

variable {Γ : Ctx} {e : Env} {n : Node} {source : Endpoint} {data : Bytes} {c c' : Core} {l : Label}

/-- Only a challenge and its answer have to do with the path. -/
theorem Step.path_eq (hs : Step Γ c l c') (hc : ∀ source tok, l ≠ .challenge source tok) (hmg : l ≠ .migrate) :
    c'.remote = c.remote ∧ c'.waiting = c.waiting := by
  cases hs with
  | challenge source tok => exact absurd rfl (hc source tok)
  | migrate => exact absurd rfl hmg
  | _ => exact ⟨rfl, rfl⟩

/-- What may have become of the path while a datagram is processed. -/
inductive PathAfter (Γ : Ctx) (e : Env) (n : Node) (source : Endpoint) (data : Bytes) (c : Core) : Prop
  | same (hremote : c.remote = (core n).remote) (hwaiting : c.waiting = (core n).waiting)
  | challenged (hremote : c.remote = (core n).remote) (hwaiting : c.waiting = [(source, e.random)])
  | answered (hanswer : AnswersChallenge Γ e n source data) (hremote : c.remote = source)
      (hwaiting : c.waiting = [] ∨ c.waiting = [(source, e.random)])

/-- The address that is challenged while a datagram that answers is processed is the one it comes from. -/
theorem PathAfter.pendingPath_eq (h : PathAfter Γ e n source data c) (ha : AnswersChallenge Γ e n source data)
    (hp : c.pathPending = true) : c.pendingPath = source := by
  have hwt : c.waiting = [(c.pendingPath, c.pathToken)] := if_pos hp
  have hf (hr : c.waiting = [(source, e.random)]) : c.pendingPath = source := by
    rw [hwt] at hr
    exact (Prod.mk.inj (singleton_inj.1 hr)).1
  cases h with
  | same hrm hw =>
    obtain ⟨flag, pkt, body, -, -, hp', hpt, -⟩ := ha
    rw [hwt, show (core n).waiting = [((core n).pendingPath, (core n).pathToken)] from if_pos hp'] at hw
    exact (Prod.mk.inj (singleton_inj.1 hw)).1.trans hpt
  | challenged hrm hw => exact hf hw
  | answered _ hrm hw =>
    rcases hw with hno | hr
    · rw [hwt] at hno
      cases hno
    · exact hf hr

theorem PathAfter.congr (h : PathAfter Γ e n source data c) (hs : c'.remote = c.remote ∧ c'.waiting = c.waiting) :
    PathAfter Γ e n source data c' := by
  obtain ⟨hr', hw'⟩ := hs
  cases h with
  | same hr hw => exact .same (hr'.trans hr) (hw'.trans hw)
  | challenged hr hw => exact .challenged (hr'.trans hr) (hw'.trans hw)
  | answered ha hr hw => exact .answered ha (hr'.trans hr) (hw' ▸ hw)

theorem PathAfter.step (h : PathAfter Γ e n source data c) (hs : Step Γ c l c') (hl : ProcessLabel Γ e n source data l) :
    PathAfter Γ e n source data c' := by
  cases l with
  | challenge s' tok =>
    obtain ⟨rfl, rfl⟩ := hl
    cases hs
    cases h with
    | same hr _ | challenged hr _ => exact .challenged hr rfl
    | answered ha hr hw => exact .answered ha hr (.inr rfl)
  | migrate =>
    cases hs with
    | migrate hp => exact .answered hl (h.pendingPath_eq hl hp) (.inl rfl)
  | _ => exact h.congr (hs.path_eq nofun nofun)

/-- A call leaves the path alone, unless it processes a datagram. -/
theorem step_path (Γ : Ctx) (n : Node) (i : Input) :
    ((core (step Γ n i)).remote = (core n).remote ∧ (core (step Γ n i)).waiting = (core n).waiting) ∨
      ∃ source data, i.call = .process source data ∧ PathAfter Γ i.env n source data (core (step Γ n i)) := by
  have hp := performs_step Γ n i
  obtain ⟨call, e⟩ := i
  cases call with
  | process source data =>
    refine .inr ⟨source, data, rfl, hp.invariant (I := PathAfter Γ e n source data) (fun c l c' hs hl hc => ?_) ?_⟩
    · exact hc.step hs hl
    · exact .same rfl rfl
  | _ =>
    refine .inl (hp.invariant (I := fun c => c.remote = (core n).remote ∧ c.waiting = (core n).waiting)
      (fun c l c' hs hl hc => ?_) ⟨rfl, rfl⟩)
    have hk := hs.path_eq (by rintro source tok rfl; cases hl) (by rintro rfl; cases hl)
    exact ⟨hk.1.trans hc.1, hk.2.trans hc.2⟩

end Call

/-! ## Runs -/

section Runs

variable (Γ : Ctx)

/-- The change of address that a call made: the new address, and the token of the challenge that waited. -/
def changeBy (n n' : Node) : List (Endpoint × Bytes) :=
  if n'.connection.remote = n.connection.remote then [] else [(n'.connection.remote, n.connection.pendingPathToken)]

/-- The challenge that a call made: it waits after the call, and did not wait before it. -/
def challengeBy (n n' : Node) : List (Endpoint × Bytes) :=
  if n'.connection.remote = n.connection.remote ∧ (core n').waiting = (core n).waiting then [] else (core n').waiting

/-- The changes of address of a run. -/
def changes : Node → List Input → List (Endpoint × Bytes)
  | _, [] => []
  | n, i :: rest => changeBy n (step Γ n i) ++ changes (step Γ n i) rest

/-- The challenges of a run. -/
def challenges : Node → List Input → List (Endpoint × Bytes)
  | _, [] => []
  | n, i :: rest => challengeBy n (step Γ n i) ++ challenges (step Γ n i) rest

variable {Γ} {n : Node} {i : Input}

/-- A call that changes the address processes the answer to the challenge that waits, and the new address is where it came from. -/
theorem answersChallenge_of_remote_ne (h : (step Γ n i).connection.remote ≠ n.connection.remote) :
    ∃ source data, i.call = .process source data ∧ AnswersChallenge Γ i.env n source data ∧
      (step Γ n i).connection.remote = source := by
  rcases step_path Γ n i with ⟨hr, -⟩ | ⟨source, data, hc, haf⟩
  · exact absurd hr h
  · cases haf with
    | same hr | challenged hr => exact absurd hr h
    | answered ha hr => exact ⟨source, data, hc, ha, hr⟩

/-- A challenge is made for the address that a datagram came from, with a token that is drawn for it. -/
theorem challengeBy_eq (h : challengeBy n (step Γ n i) ≠ []) :
    ∃ source data, i.call = .process source data ∧ challengeBy n (step Γ n i) = [(source, i.env.random)] := by
  unfold challengeBy at h ⊢
  split at h
  · exact absurd rfl h
  rename_i hc
  rw [if_neg hc]
  rcases step_path Γ n i with hs | ⟨source, data, hcl, ha⟩
  · exact absurd hs hc
  · refine ⟨source, data, hcl, ?_⟩
    cases ha with
    | same hr hw => exact absurd ⟨hr, hw⟩ hc
    | challenged hr hw => exact hw
    | answered han hr hw => exact hw.resolve_left h

/-- What waits after a call waited before it or was challenged by it, and a change uses up what waited. -/
theorem changeBy_sublist (Γ : Ctx) (n : Node) (i : Input) :
    (changeBy n (step Γ n i) ++ (core (step Γ n i)).waiting).Sublist ((core n).waiting ++ challengeBy n (step Γ n i)) := by
  unfold changeBy challengeBy
  by_cases hr : (step Γ n i).connection.remote = n.connection.remote
  · rw [if_pos hr, nil_append]
    by_cases hw : (core (step Γ n i)).waiting = (core n).waiting
    · rw [if_pos ⟨hr, hw⟩, append_nil, hw]
    · rw [if_neg fun h => hw h.2]
      exact sublist_append_right _ _
  · -- the challenge that is answered is the one that waits, and nothing is left of it
    obtain ⟨source, data, -, ⟨flag, pkt, body, -, -, hp, hpt, -⟩, hs⟩ := answersChallenge_of_remote_ne hr
    have hwt : (core n).waiting = [(n.connection.pendingPath, n.connection.pendingPathToken)] := if_pos hp
    rw [if_neg hr, if_neg fun h => hr h.1, hwt, hpt, hs]

theorem changes_sublist (is : List Input) : ∀ n : Node,
    (changes Γ n is ++ (core (run Γ n is)).waiting).Sublist ((core n).waiting ++ challenges Γ n is) := by
  induction is with
  | nil =>
    intro n
    rw [changes, challenges, nil_append, append_nil]
    exact List.Sublist.refl _
  | cons i tl ih =>
    intro n
    have hf := changeBy_sublist Γ n i
    have hr := ih (step Γ n i)
    rw [changes, challenges, append_assoc, ← append_assoc (core n).waiting]
    refine (hr.append_left (changeBy n (step Γ n i))).trans ?_
    rw [← append_assoc]
    exact hf.append_right (challenges Γ (step Γ n i) tl)

end Runs

/-- The path of a connection, over every run.
1. The address of the peer changes only when a path response comes from the address that was challenged and carries the token of the
   challenge that waits, and it changes to that address.
2. A challenge is made for the address that a datagram came from, with a token that is drawn for it.
3. Every challenge causes at most one change: the changes are among the challenge that waited at the start and those of the run, in
   their order. -/
theorem remote_changes_only_by_challenge (Γ : Ctx) (n : Node) (inputs : List Input) :
    (∀ first i rest, inputs = first ++ i :: rest →
      let m := run Γ n first
      (step Γ m i).connection.remote ≠ m.connection.remote →
        ∃ source data, i.call = .process source data ∧ AnswersChallenge Γ i.env m source data ∧
          (step Γ m i).connection.remote = source) ∧
    (∀ first i rest, inputs = first ++ i :: rest →
      let m := run Γ n first
      challengeBy m (step Γ m i) ≠ [] →
        ∃ source data, i.call = .process source data ∧ challengeBy m (step Γ m i) = [(source, i.env.random)]) ∧
    (changes Γ n inputs).Sublist ((core n).waiting ++ challenges Γ n inputs) := by
  refine ⟨?_, ?_, (sublist_append_left _ _).trans (changes_sublist inputs n)⟩
  · intro first i rest _ m hc
    exact answersChallenge_of_remote_ne hc
  · intro first i rest _ m hmd
    exact challengeBy_eq hmd

/-- A frame comes from another address, which is challenged; the address answers twice, and is taken over once. -/
example :
    let frame := framePacket (fragment 100 {} 1 1 0 [9] 0) 7 1 0 0 []
    let answer := pathPacket .pathResponse 7 2 0 [1, 2, 3, 4, 5, 6, 7, 8]
    let inputs : List Input := [⟨.process ⟨[2]⟩ frame, { now := 1000, random := [1, 2, 3, 4, 5, 6, 7, 8] }⟩,
      ⟨.process ⟨[2]⟩ answer, { now := 1000 }⟩, ⟨.process ⟨[2]⟩ answer, { now := 1000 }⟩]
    changes plainCtx openNode inputs = [(⟨[2]⟩, [1, 2, 3, 4, 5, 6, 7, 8])] ∧
      (run plainCtx openNode inputs).connection.remote = ⟨[2]⟩ := by
  decide

end Libft.Networking
