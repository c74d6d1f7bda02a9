import Libft.Lib.Deficit
import Libft.Networking.Calls

/-!
# Selecting a lane

A selection of `select_lane` among lanes without reservations is a turn of the lanes that wait: each earns its weight, and one that has
most pays one. No call changes the weights, the reservations or the deficits of lanes but by a selection, or by configuring a lane.
-/

namespace Libft.Networking

open List Function LaneState

/-! ## One selection -/

/-- A lane that has earned its weight. -/
def LaneState.earn (lane : LaneState) : LaneState := { lane with deficit := lane.deficit + lane.priorityWeight.toUInt64 }

/-- The result of the loop over lanes: those that are eligible have earned, and the selected one is one that has most. -/
structure Selected (el : Lane → Bool) (lanes : Lane → LaneState) (among : List Lane)
    (r : (Lane → LaneState) × Option (Lane × UInt64)) : Prop where
  lanes_eq : ∀ lane, r.1 lane = if lane ∈ among ∧ el lane = true then (lanes lane).earn else lanes lane
  none_of : r.2 = none → ∀ lane ∈ among, el lane = false
  some_of : ∀ s best, r.2 = some (s, best) → s ∈ among ∧ el s = true ∧ best = (lanes s).earn.deficit ∧
    ∀ lane ∈ among, el lane = true → (lanes lane).earn.deficit ≤ best

section Selecting

variable {el : Lane → Bool} {lanes : Lane → LaneState} {among : List Lane} {r : (Lane → LaneState) × Option (Lane × UInt64)}
  {lane : Lane}

/-- A lane that is not eligible is passed over. -/
theorem Selected.pass (h : Selected el lanes among r) (hln : el lane = false) :
    Selected el lanes (among ++ [lane]) r := by
  have hm (x : Lane) : (x ∈ among ++ [lane] ∧ el x = true) ↔ x ∈ among ∧ el x = true := by
    constructor
    · rintro ⟨hx, he⟩
      rcases mem_append.1 hx with hin | hl
      · exact ⟨hin, he⟩
      · rw [mem_singleton.1 hl, hln] at he
        cases he
    · exact fun ⟨hx, he⟩ => ⟨mem_append_left _ hx, he⟩
  refine ⟨fun x => ?_, fun hno x hx => ?_, fun s best hb => ?_⟩
  · simp only [h.lanes_eq x, hm x]
  · rcases mem_append.1 hx with hin | hl
    · exact h.none_of hno x hin
    · rw [mem_singleton.1 hl]
      exact hln
  · obtain ⟨hs, he, hb, hms⟩ := h.some_of s best hb
    refine ⟨mem_append_left _ hs, he, hb, fun x hx hx' => ?_⟩
    exact hms x ((hm x).1 ⟨hx, hx'⟩).1 hx'

/-- A lane that is eligible earns, and is selected if it has more than the best so far. -/
theorem Selected.take (h : Selected el lanes among r) (hn : lane ∉ among) (hln : el lane = true) :
    Selected el lanes (among ++ [lane]) (selectStep el r lane) := by
  obtain ⟨l', best⟩ := r
  have ho : l' lane = lanes lane := by
    have hl := h.lanes_eq lane
    rwa [if_neg fun hand => hn hand.1] at hl
  have her (x : Lane) : update l' lane (lanes lane).earn x =
      if x ∈ among ++ [lane] ∧ el x = true then (lanes x).earn else lanes x := by
    by_cases hx : x = lane
    · rw [hx, update_self, if_pos ⟨mem_append_right _ (mem_singleton_self _), hln⟩]
    · simp only [update_of_ne hx, mem_append, mem_singleton, hx, or_false]
      exact h.lanes_eq x
  have hsl : lane ∈ among ++ [lane] := mem_append_right _ (mem_singleton_self _)
  unfold selectStep
  simp only [hln, Bool.true_eq_false, if_false, ho]
  cases best with
  | none =>
    refine ⟨her, fun h => absurd h (Option.some_ne_none _), fun s v hs => ?_⟩
    obtain ⟨rfl, rfl⟩ := Prod.mk.inj (Option.some.inj hs)
    refine ⟨hsl, hln, rfl, fun x hx he => ?_⟩
    rcases mem_append.1 hx with hin | hls
    · rw [h.none_of rfl x hin] at he
      cases he
    · rw [mem_singleton.1 hls]
      exact UInt64.le_refl _
  | some best =>
    obtain ⟨s, v⟩ := best
    obtain ⟨hs, hes, rfl, hms⟩ := h.some_of s v rfl
    dsimp only
    split
    · rename_i hmr
      refine ⟨her, fun h => absurd h (Option.some_ne_none _), fun s' v hs' => ?_⟩
      obtain ⟨rfl, rfl⟩ := Prod.mk.inj (Option.some.inj hs')
      refine ⟨hsl, hln, rfl, fun x hx he => ?_⟩
      rcases mem_append.1 hx with hin | hls
      · exact UInt64.le_of_lt (UInt64.lt_of_le_of_lt (hms x hin he) hmr)
      · rw [mem_singleton.1 hls]
        exact UInt64.le_refl _
    · rename_i hles
      refine ⟨her, fun h => absurd h (Option.some_ne_none _), fun s' v hs' => ?_⟩
      obtain ⟨rfl, rfl⟩ := Prod.mk.inj (Option.some.inj hs')
      refine ⟨mem_append_left _ hs, hes, rfl, fun x hx he => ?_⟩
      rcases mem_append.1 hx with hin | hls
      · exact hms x hin he
      · rw [mem_singleton.1 hls]
        exact UInt64.not_lt.1 hles

theorem selected_foldl (el : Lane → Bool) (lanes : Lane → LaneState) (among : List Lane) (hnd : among.Nodup) :
    Selected el lanes among (among.foldl (selectStep el) (lanes, none)) := by
  induction among using List.reverseRecOn with
  | nil => exact ⟨by simp, by simp, by simp⟩
  | append_singleton among lane ih =>
    rw [nodup_append] at hnd
    have hn : lane ∉ among := fun hin => hnd.2.2 lane hin lane (mem_singleton_self _) rfl
    have hb := ih hnd.1
    rw [foldl_append, foldl_cons, foldl_nil]
    by_cases hl : el lane = true
    · exact hb.take hn hl
    · have hp := Bool.eq_false_iff.2 hl
      rw [selectStep, if_pos hp]
      exact hb.pass hp

end Selecting

/-- The lanes that have frames. -/
def ConnectionRecord.waiting (c : ConnectionRecord) : Set Lane := { lane | c.pendingLanes lane ≠ [] }

instance (c : ConnectionRecord) (lane : Lane) : Decidable (lane ∈ c.waiting) :=
  inferInstanceAs (Decidable (c.pendingLanes lane ≠ []))

/-- The weights and the deficits of lanes, as numbers. -/
def weights (shares : Lane → LaneShare) : Lane → ℕ := fun lane => (shares lane).priorityWeight.toNat

@[inherit_doc weights]
def deficits (shares : Lane → LaneShare) : Lane → ℕ := fun lane => (shares lane).deficit.toNat

/-- The shares of lanes. -/
def shares (lanes : Lane → LaneState) : Lane → LaneShare := fun lane => (lanes lane).share

/-- A selection among application lanes: nothing waits on the control lane, the lanes that wait have a weight and no reservation, and no
deficit is so large that it would wrap. -/
@[mk_iff]
structure Selects (c : ConnectionRecord) : Prop where
  control : c.pendingLanes 0 = []
  weight : ∀ lane ∈ c.waiting, (c.lanes lane).priorityWeight ≠ 0
  reserve : ∀ lane ∈ c.waiting, (c.lanes lane).reservedBandwidthBytesPerSecond = 0
  room : ∀ lane ∈ c.waiting, (c.lanes lane).deficit.toNat + (c.lanes lane).priorityWeight.toNat < 2 ^ 64

instance (c : ConnectionRecord) : Decidable (Selects c) := decidable_of_iff _ (selects_iff c).symm

theorem share_refreshWindows (now : UInt64) (lanes : Lane → LaneState) (lane : Lane) :
    (refreshWindows now lanes lane).share = (lanes lane).share := by
  unfold refreshWindows
  split <;> rfl

section Selection

variable {c : ConnectionRecord} {now : UInt64} {lane : Lane}

/-- Lanes one to three have all that wait. -/
theorem Selects.mem (h : Selects c) (hl : lane ∈ c.waiting) : lane ∈ ([1, 2, 3] : List Lane) := by
  have hne : lane ≠ 0 := by
    rintro rfl
    exact hl h.control
  have ha : ∀ lane : Lane, lane ≠ 0 → lane ∈ ([1, 2, 3] : List Lane) := by decide
  exact ha lane hne

/-- The lanes after the selected one has paid. -/
def pay (lanes : Lane → LaneState) (lane : Lane) : Lane → LaneState :=
  if (lanes lane).deficit = 0 then lanes else Function.update lanes lane { lanes lane with deficit := (lanes lane).deficit - 1 }

/-- The loop of a selection runs over the lanes that wait, and the lane that it leaves as the best is selected and pays. -/
theorem Selects.loop (h : Selects c) (now : UInt64) : ∃ lanes best,
    Selected (fun lane => !(c.pendingLanes lane).isEmpty) (refreshWindows now c.lanes) [1, 2, 3] (lanes, best) ∧
      selectLane now c = match best with
        | none => (none, lanes)
        | some (lane, _) => (some lane, pay lanes lane) := by
  have hr : ([1, 2, 3].any fun lane =>
      !(c.pendingLanes lane).isEmpty && (refreshWindows now c.lanes lane).hasReserve) = false := by
    rw [any_eq_false]
    intro lane _
    by_cases hl : lane ∈ c.waiting
    · have hs := congrArg LaneShare.reservedBandwidth (share_refreshWindows now c.lanes lane)
      have hz : (refreshWindows now c.lanes lane).reservedBandwidthBytesPerSecond = 0 := hs.trans (h.reserve lane hl)
      simp [hasReserve, hz]
    · have hn : c.pendingLanes lane = [] := Decidable.not_not.1 hl
      simp [hn]
  have hlp := selected_foldl (fun lane => !(c.pendingLanes lane).isEmpty) (refreshWindows now c.lanes) [1, 2, 3] (by decide)
  unfold selectLane
  simp only [h.control, isEmpty_nil, Bool.true_eq_false, if_false, hr, Bool.not_false, Bool.true_or, Bool.and_true]
  generalize [1, 2, 3].foldl (selectStep fun lane => !(c.pendingLanes lane).isEmpty) (refreshWindows now c.lanes, none) = r
    at hlp ⊢
  obtain ⟨lanes, best⟩ := r
  refine ⟨lanes, best, hlp, ?_⟩
  cases best with
  | none => rfl
  | some best => rfl

/-- A selection in which nothing waits selects nothing and leaves the shares alone. -/
theorem Selects.shares_of_none (h : Selects c) (hs : (selectLane now c).1 = none) : shares (selectLane now c).2 = shares c.lanes := by
  obtain ⟨lanes, best, hlp, heq⟩ := h.loop now
  rw [heq] at hs ⊢
  cases best with
  | some best => cases hs
  | none =>
    funext lane
    have hl := hlp.lanes_eq lane
    rw [if_neg] at hl
    · exact (congrArg share hl).trans (share_refreshWindows now c.lanes lane)
    · rintro ⟨hm, he⟩
      rw [hlp.none_of rfl lane hm] at he
      cases he

/-- What a lane that waits has when it has earned its weight, as a number. -/
theorem Selects.toNat_earn (h : Selects c) (hl : lane ∈ c.waiting) :
    (refreshWindows now c.lanes lane).earn.deficit.toNat = deficits (shares c.lanes) lane + weights (shares c.lanes) lane := by
  have hs := share_refreshWindows now c.lanes lane
  have hd : (refreshWindows now c.lanes lane).deficit = (c.lanes lane).deficit := congrArg LaneShare.deficit hs
  have hw : (refreshWindows now c.lanes lane).priorityWeight = (c.lanes lane).priorityWeight := congrArg LaneShare.priorityWeight hs
  rw [earn, hd, hw, UInt64.toNat_add, UInt32.toNat_toUInt64]
  exact Nat.mod_eq_of_lt (h.room lane hl)

/-- A selection in which a lane waits selects one. -/
theorem Selects.exists_selected (h : Selects c) (hl : lane ∈ c.waiting) (now : UInt64) : ∃ s, (selectLane now c).1 = some s := by
  obtain ⟨lanes, best, hlp, heq⟩ := h.loop now
  rw [heq]
  cases best with
  | some best => exact ⟨best.1, rfl⟩
  | none =>
    have hn := hlp.none_of rfl lane (h.mem hl)
    rw [Bool.not_eq_false', List.isEmpty_iff] at hn
    exact absurd hn hl

/-- A selection that selects a lane is a turn of the lanes that wait, and leaves the weights and the reservations alone. -/
theorem Selects.turn (h : Selects c) {s : Lane} (hsl : (selectLane now c).1 = some s) :
    Turn (weights (shares c.lanes)) c.waiting (deficits (shares c.lanes)) s (deficits (shares (selectLane now c).2)) ∧
      ∀ lane, (shares (selectLane now c).2 lane).priorityWeight = (shares c.lanes lane).priorityWeight ∧
        (shares (selectLane now c).2 lane).reservedBandwidth = (shares c.lanes lane).reservedBandwidth := by
  obtain ⟨lanes, best, hlp, heq⟩ := h.loop now
  rw [heq] at hsl ⊢
  cases best with
  | none => cases hsl
  | some best =>
    obtain ⟨s', v⟩ := best
    obtain rfl : s' = s := Option.some.inj hsl
    obtain ⟨hs, hel, rfl, hms⟩ := hlp.some_of s' v rfl
    have hw (lane : Lane) : (!(c.pendingLanes lane).isEmpty) = true ↔ lane ∈ c.waiting := by
      simp [ConnectionRecord.waiting]
    have he {lane : Lane} (hl : lane ∈ c.waiting) : lanes lane = (refreshWindows now c.lanes lane).earn :=
      (hlp.lanes_eq lane).trans (if_pos ⟨h.mem hl, (hw lane).2 hl⟩)
    have hk {lane : Lane} (hl : lane ∉ c.waiting) : lanes lane = refreshWindows now c.lanes lane :=
      (hlp.lanes_eq lane).trans (if_neg fun hand => hl ((hw lane).1 hand.2))
    have hs' := (hw s').1 hel
    -- what the selected lane has is its weight at least, so that it can pay
    have hv : (lanes s').deficit.toNat = deficits (shares c.lanes) s' + weights (shares c.lanes) s' := he hs' ▸ h.toNat_earn hs'
    have hpos : weights (shares c.lanes) s' ≠ 0 := fun hz => h.weight s' hs' (UInt32.toNat_inj.1 hz)
    have hp : (lanes s').deficit ≠ 0 := by
      intro hz
      rw [hz, UInt64.toNat_zero] at hv
      omega
    have hy : pay lanes s' = update lanes s' { lanes s' with deficit := (lanes s').deficit - 1 } := if_neg hp
    refine ⟨⟨hs', fun lane hl => ?_, ?_, fun lane hl hne => ?_, fun lane hl => ?_⟩, ?_⟩
    · have hle := hms lane (h.mem hl) ((hw lane).2 hl)
      rwa [UInt64.le_iff_toNat_le, h.toNat_earn hl, h.toNat_earn hs'] at hle
    · have ho : (1 : UInt64) ≤ (lanes s').deficit := by
        rw [UInt64.le_iff_toNat_le, UInt64.toNat_one]
        omega
      have hpd : deficits (shares (pay lanes s')) s' = (lanes s').deficit.toNat - 1 := by
        simp only [deficits, shares, share, hy, update_self]
        rw [UInt64.toNat_sub_of_le _ _ ho, UInt64.toNat_one]
      rw [hpd]
      omega
    · simp only [deficits, shares, share, hy, update_of_ne hne]
      rw [he hl]
      exact h.toNat_earn hl
    · have hne : lane ≠ s' := by
        rintro rfl
        exact hl hs'
      simp only [deficits, shares, hy, update_of_ne hne, hk hl, share_refreshWindows]
    · intro lane
      have hsm := share_refreshWindows now c.lanes lane
      have hl : (lanes lane).share.priorityWeight = (refreshWindows now c.lanes lane).share.priorityWeight ∧
          (lanes lane).share.reservedBandwidth = (refreshWindows now c.lanes lane).share.reservedBandwidth := by
        by_cases hl : lane ∈ c.waiting
        · rw [he hl]
          exact ⟨rfl, rfl⟩
        · rw [hk hl]
          exact ⟨rfl, rfl⟩
      rw [hsm] at hl
      simp only [shares, hy, update_apply]
      split
      · rename_i heq
        subst heq
        exact hl
      · exact hl

end Selection

/-! ## One call -/

/-- The labels that change shares. -/
def Label.sharing : Label → Bool
  | .select | .configure => true
  | _ => false

variable {Γ : Ctx}

theorem Step.shares_eq {c c' : Core} {l : Label} (h : Step Γ c l c') (hl : l.sharing = false) : c'.shares = c.shares := by
  cases h with
  | select | configure => cases hl
  | _ => rfl

/-- What does not select and does not configure leaves the shares alone. -/
theorem shares_of_performs {P : Label → Prop} {k : Nat} {n n' : Node} (h : Performs Γ P k n n')
    (hP : ∀ l, P l → l.sharing = false) : shares n'.connection.lanes = shares n.connection.lanes :=
  h.invariant (I := fun c => c.shares = shares n.connection.lanes) (fun _ l _ hs hl hc => (hs.shares_eq (hP l hl)).trans hc) rfl

/-- The frame stage changes shares by the selection only. -/
theorem shares_sendPending (Γ : Ctx) (e : Env) (n : Node) :
    shares (sendPending Γ e n).1.connection.lanes = shares (selectLane e.now n.connection).2 := by
  unfold sendPending
  dsimp only
  cases (selectLane e.now n.connection).1 with
  | none => rfl
  | some lane =>
    dsimp only
    cases hl : n.connection.pendingLanes lane with
    | nil =>
      simp only [Node.modify_connection, hl]
      rfl
    | cons frame tl =>
      simp only [Node.modify_connection, hl]
      exact shares_of_performs (P := fun l => l.sharing = false)
        (performs_sendFrame (n := n.modify fun c => { c with lanes := (selectLane e.now n.connection).2 }) hl
          (fun _ => rfl) (fun _ => rfl) rfl (fun _ => rfl) fun _ _ _ _ _ _ _ => rfl) fun _ => id

/-- The node that a stage goes on with. -/
def Outcome.onward : Outcome → Option Node
  | (n, none) => some n
  | _ => none

/-- The state in which a call selects a lane, if it comes to that. -/
def selecting (Γ : Ctx) (n : Node) (i : Input) : Option Node :=
  match i.call with
  | .advance => (beforeFrame Γ i.env n).onward
  | .poll =>
    if n.connection.state = .connected ∨ n.connection.state = .handshaking ∨ n.connection.state = .draining then
      (beforeFrame Γ i.env n).onward
    else none
  | _ => none

/-- The calls that give a lane another weight or reservation. -/
def Call.configures : Call → Bool
  | .configureLane .. => true
  | _ => false

/-- The shares after a call, in terms of the state in which it selects. -/
def SharesAfter (n : Node) (now : UInt64) (n' : Node) : Option Node → Prop
  | none => shares n'.connection.lanes = shares n.connection.lanes
  | some m => shares m.connection.lanes = shares n.connection.lanes ∧
      shares n'.connection.lanes = shares (selectLane now m.connection).2

theorem sharesAfter_advanceConnection (Γ : Ctx) (e : Env) (n : Node) :
    SharesAfter n e.now (advanceConnection Γ e n).1 (beforeFrame Γ e n).onward := by
  have hb : shares (beforeFrame Γ e n).1.connection.lanes = shares n.connection.lanes := by
    refine shares_of_performs performs_beforeFrame fun l hl => ?_
    cases l with
    | select => exact absurd rfl hl.2
    | configure => exact hl.1.elim
    | _ => rfl
  unfold advanceConnection Outcome.next
  generalize beforeFrame Γ e n = o at hb ⊢
  obtain ⟨m, code⟩ := o
  cases code with
  | some code => exact hb
  | none => exact ⟨hb, shares_sendPending Γ e m⟩

/-- A call changes shares by its selection only, unless it configures a lane. -/
theorem sharesAfter_step (Γ : Ctx) (n : Node) (i : Input) (hi : i.call.configures = false) :
    SharesAfter n i.env.now (step Γ n i) (selecting Γ n i) := by
  have hp := performs_step Γ n i
  have hq (h : ∀ l, CallLabel Γ n i l → l.sharing = false) : shares (step Γ n i).connection.lanes = shares n.connection.lanes :=
    shares_of_performs hp h
  obtain ⟨call, e⟩ := i
  cases call with
  | advance => exact sharesAfter_advanceConnection Γ e n
  | poll =>
    simp only [selecting, step, pollConnection]
    split
    · exact sharesAfter_advanceConnection Γ e n
    · rfl
  | configureLane => cases hi
  | _ =>
    refine hq fun l hl => ?_
    cases l with
    | select | configure => cases hl
    | _ => rfl

end Libft.Networking
