import Libft.Networking.Acknowledge

/-!
# Delivery

`find_channel_state` and `deliver`: a message goes to the application, waits for the messages before it, or is dropped, by the
delivery mode and the counters of its channel. One counter of a channel, `next_reliable_sequence`, numbers the reliable messages that
are sent on it and is also the number of the reliable message that is delivered next.
-/

namespace Libft.Networking

open Function

/-! ## Channels -/

/-- The state of a channel: the first record of that channel, or a new one. -/
def channelState (channels : List ChannelState) (channel : UInt32) : ChannelState :=
  (channels.find? fun s => s.channel = channel).getD { channel := channel }

/-- `find_channel_state`: the channels with a record of this one, which is added when there is none and there is memory for it. -/
def findChannelState (storage : Bool) (channels : List ChannelState) (channel : UInt32) : Option (List ChannelState) :=
  if (channels.any fun s => s.channel = channel) = true then some channels
  else if storage = true then some (channels ++ [{ channel := channel }])
  else none

/-- Change the record of a channel. -/
def updateChannel (channel : UInt32) (f : ChannelState → ChannelState) : List ChannelState → List ChannelState
  | [] => []
  | s :: rest => if s.channel = channel then f s :: rest else s :: updateChannel channel f rest

/-- Set the number of the next reliable message of a channel. -/
def setNextReliable (channel : UInt32) (sequence : UInt64) (channels : List ChannelState) : List ChannelState :=
  updateChannel channel (fun s => { s with nextReliableSequence := sequence }) channels

/-- Set the number of the latest unreliable message of a channel. -/
def setLatestUnreliable (channel : UInt32) (sequence : UInt64) (channels : List ChannelState) : List ChannelState :=
  updateChannel channel (fun s => { s with latestUnreliableSequence := sequence }) channels

variable {channels : List ChannelState} {channel : UInt32}

/-- The record that `find_channel_state` adds changes the state of no channel. -/
theorem findChannelState_eq_some {storage : Bool} {c' : List ChannelState} (h : findChannelState storage channels channel = some c') :
    (∀ x, channelState c' x = channelState channels x) ∧ (c'.any fun s => s.channel = channel) = true := by
  unfold findChannelState at h
  split at h
  · rename_i ha
    cases h
    exact ⟨fun _ => rfl, ha⟩
  · split at h
    · cases h
      refine ⟨fun x => ?_, by simp⟩
      unfold channelState
      rw [List.find?_append]
      cases hfind : channels.find? fun s => decide (s.channel = x) with
      | some s => rfl
      | none =>
        by_cases hx : channel = x
        · simp [hx]
        · simp [hx]
    · cases h

/-- The next number of a channel that has a record is set, and that of the others is not. -/
theorem nextReliableSequence_setNextReliable (h : (channels.any fun s => s.channel = channel) = true) (seq : UInt64) (x : UInt32) :
    (channelState (setNextReliable channel seq channels) x).nextReliableSequence =
      update (fun x => (channelState channels x).nextReliableSequence) channel seq x := by
  induction channels with
  | nil => simp at h
  | cons s tl ih =>
    simp only [setNextReliable, updateChannel]
    by_cases hs : s.channel = channel
    · rw [if_pos hs]
      by_cases hx : x = channel
      · simp [channelState, hx, hs]
      · have hxs : ¬s.channel = x := fun heq => hx (heq ▸ hs)
        simp [channelState, hx, hxs]
    · rw [if_neg hs]
      have hr : (tl.any fun s => s.channel = channel) = true := by simpa [hs] using h
      by_cases hx : s.channel = x
      · have hxc : ¬x = channel := fun heq => hs (hx.trans heq)
        simp [channelState, hx, hxc]
      · have := ih hr
        simp only [channelState, setNextReliable, update_apply] at this ⊢
        simpa [hx] using this

theorem nextReliableSequence_setLatestUnreliable (channels : List ChannelState) (channel : UInt32) (seq : UInt64) (x : UInt32) :
    (channelState (setLatestUnreliable channel seq channels) x).nextReliableSequence =
      (channelState channels x).nextReliableSequence := by
  induction channels with
  | nil => rfl
  | cons s tl ih =>
    simp only [setLatestUnreliable, updateChannel]
    split
    · rename_i hs
      by_cases hx : s.channel = x
      · simp [channelState, hx]
      · simp [channelState, hx]
    · by_cases hx : s.channel = x
      · simp [channelState, hx]
      · simp only [channelState, setLatestUnreliable] at ih ⊢
        simpa [hx] using ih

theorem any_setNextReliable (seq : UInt64) (h : (channels.any fun s => s.channel = channel) = true) :
    ((setNextReliable channel seq channels).any fun s => s.channel = channel) = true := by
  induction channels with
  | nil => simp at h
  | cons s tl ih =>
    simp only [setNextReliable, updateChannel]
    by_cases hs : s.channel = channel
    · simp [hs]
    · rw [if_neg hs]
      have hr : (tl.any fun s => s.channel = channel) = true := by simpa [hs] using h
      simp only [List.any_cons, Bool.or_eq_true]
      exact .inr (ih hr)

/-! ## Messages -/

/-- `append_received` with `record_lane_receive`: a message for the application, counted. -/
def Node.receiveMessage (n : Node) (message : ReceivedMessage) : Node :=
  let lane := laneIndex message.lane
  (n.deliver message).modify fun c => { c with
    statistics := { c.statistics with
      messagesReceived := c.statistics.messagesReceived + 1
      laneMessagesReceived := update c.statistics.laneMessagesReceived lane (c.statistics.laneMessagesReceived lane + 1)
      laneBytesReceived := update c.statistics.laneBytesReceived lane
        (c.statistics.laneBytesReceived lane + message.payload.length) } }

/-- The release loop of `deliver`: as long as the message that is next on the channel waits, it is taken out and delivered. A message
for which there is no memory is lost, and the one behind it becomes the next. -/
def releasePending (e : Env) (channel : UInt32) : Nat → Node → Node
  | 0, n => n
  | waiting + 1, n =>
    let next := (channelState n.connection.channels channel).nextReliableSequence
    let isNext := fun m : ReceivedMessage => decide (m.channel = channel) && decide (m.sequence = next)
    match n.connection.orderedPending.find? isNext with
    | none => n
    | some message =>
      let n := if e.ok (.released waiting) = true then n.receiveMessage message else n
      releasePending e channel waiting (n.modify fun c => { c with
        orderedPending := c.orderedPending.eraseP isNext
        channels := setNextReliable channel (next + 1) c.channels })

/-- `deliver`, for a reliable message whose channel has its record. -/
def deliverReliable (e : Env) (n : Node) (message : ReceivedMessage) : Node :=
  let next := (channelState n.connection.channels message.channel).nextReliableSequence
  if message.sequence < next then n
  else if next < message.sequence then
    if e.ok .buffered = true then n.modify fun c => { c with orderedPending := c.orderedPending ++ [message] } else n
  else if e.ok .received = false then n
  else
    releasePending e message.channel n.connection.orderedPending.length ((n.receiveMessage message).modify fun c => { c with
      channels := setNextReliable message.channel (next + 1) c.channels })

/-- `deliver`. -/
def deliver (e : Env) (n : Node) (message : ReceivedMessage) : Node :=
  match findChannelState (e.ok .channelState) n.connection.channels message.channel with
  | none => n
  | some channels =>
    let n := n.modify fun c => { c with channels := channels }
    match message.delivery with
    | .unreliableSequenced =>
      if message.sequence ≤ (channelState channels message.channel).latestUnreliableSequence then n
      else
        let n := n.modify fun c => { c with channels := setLatestUnreliable message.channel message.sequence c.channels }
        if e.ok .received = true then n.receiveMessage message else n
    | .unreliable => if e.ok .received = true then n.receiveMessage message else n
    | .reliableOrdered => deliverReliable e n message

end Libft.Networking
