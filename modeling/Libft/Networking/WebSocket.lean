import Libft.Lib.Bytes
import Libft.Lib.Run

/-!
# Frames of WebSockets

The client and the server build a frame and hand it to the socket with one call of `nw_send`. The socket may accept a part of it; a call
that returns no error is a success all the same, so that what is sent next starts in the middle of the frame (`send_part`). The mask,
whether a connection compresses and what the compression makes of a message are inputs, as is what `send` returns; locks are left out,
and a frame can be built.
-/

namespace Libft.Networking.WebSocket

open List Bytes

/-- The codes that the calls return. -/
inductive Error where
  | success | invalidOperation
  deriving DecidableEq

/-- A connection: its descriptor, what `send` will return for it, and the bytes it has accepted. -/
structure Socket where
  fd : Int
  results : List Int
  wire : Bytes

/-- What the next `send` returns. -/
def Socket.next (s : Socket) : Int := s.results.headD (-1)

/-- `nw_send`: as many bytes are accepted as it returns. -/
def nwSend (s : Socket) (buffer : Bytes) : Socket × Int :=
  ({ s with results := s.results.tail, wire := s.wire ++ buffer.take s.next.toNat }, s.next)

/-- The end of every call that sends a frame. -/
def sendFrame (s : Socket) (frame : Bytes) : Socket × Error :=
  let out := nwSend s frame
  (out.1, if out.2 < 0 then .invalidOperation else .success)

/-- The mask is the four bytes of a number, the lowest first. -/
def maskKey (mask : UInt32) : Bytes := (range 4).map fun i => (mask >>> UInt32.ofNat (8 * i)).toUInt8

/-- A frame of the client, unless it is too long. -/
def clientFrame (first : UInt8) (mask : UInt32) (payload : Bytes) : Option Bytes := do
  let length ←
    if payload.length ≤ 125 then some [0x80 ||| UInt8.ofNat payload.length]
    else if payload.length ≤ 65535 then some ((0x80 ||| 126) :: write 2 payload.length)
    else none
  return first :: (length ++ maskKey mask ++ payload.mapIdx fun i b => b ^^^ (maskKey mask).getD (i % 4) 0)

/-- A frame of the server. -/
def serverFrame (first : UInt8) (payload : Bytes) : Bytes :=
  first ::
    ((if payload.length ≤ 125 then [UInt8.ofNat payload.length]
      else if payload.length ≤ 65535 then 126 :: write 2 payload.length
      else 127 :: write 8 payload.length) ++ payload)

/-- A frame is sent, if there is one and the socket is open. -/
def sendOpen (frame : Option Bytes) (s : Socket) : Socket × Error :=
  if s.fd < 0 then (s, .invalidOperation)
  else
    match frame with
    | none => (s, .invalidOperation)
    | some frame => sendFrame s frame

/-- `ft_websocket_client::send_text` -/
def clientSendText (mask : UInt32) (message : Bytes) : Socket → Socket × Error := sendOpen (clientFrame 0x81 mask message)

/-- `ft_websocket_client::send_pong_locked` -/
def clientSendPong (mask : UInt32) (payload : Bytes) : Socket → Socket × Error := sendOpen (clientFrame 0x8a mask payload)

/-- What the server sends of a message: as it is, or compressed if the connection has that, unless the compression fails. -/
def serverTextFrame (deflate : Option (Bytes → Option Bytes)) (message : Bytes) : Option Bytes :=
  match deflate with
  | none => some (serverFrame 0x81 message)
  | some compress => (compress message).map (serverFrame 0xc1)

/-- `ft_websocket_server::send_text` -/
def serverSendText (deflate : Option (Bytes → Option Bytes)) (message : Bytes) : Socket → Socket × Error :=
  sendOpen (serverTextFrame deflate message)

/-- `ft_websocket_server::send_pong_locked`, of which the descriptor is not checked -/
def serverSendPong (payload : Bytes) (s : Socket) : Socket × Error := sendFrame s (serverFrame 0x8a payload)

/-- A call that sends a frame. -/
inductive Call where
  | clientText (mask : UInt32) (message : Bytes)
  | clientPong (mask : UInt32) (payload : Bytes)
  | serverText (deflate : Option (Bytes → Option Bytes)) (message : Bytes)
  | serverPong (payload : Bytes)

def Call.send (s : Socket) : Call → Socket × Error
  | .clientText mask message => clientSendText mask message s
  | .clientPong mask payload => clientSendPong mask payload s
  | .serverText deflate message => serverSendText deflate message s
  | .serverPong payload => serverSendPong payload s

/-- The frame of a call that comes to the socket. -/
def Call.frame (s : Socket) : Call → Option Bytes
  | .clientText mask message => if s.fd < 0 then none else clientFrame 0x81 mask message
  | .clientPong mask payload => if s.fd < 0 then none else clientFrame 0x8a mask payload
  | .serverText deflate message => if s.fd < 0 then none else serverTextFrame deflate message
  | .serverPong payload => some (serverFrame 0x8a payload)

/-- Every call hands its frame to the socket, or does nothing and fails. -/
theorem Call.send_eq (s : Socket) (call : Call) :
    call.send s = match call.frame s with
      | none => (s, .invalidOperation)
      | some frame => sendFrame s frame := by
  cases call with
  | serverPong payload => rfl
  | clientText _ _ | clientPong _ _ | serverText _ _ =>
    simp only [Call.send, Call.frame, clientSendText, clientSendPong, serverSendText, sendOpen]
    split <;> rfl

/-- The socket accepts no part of a frame without accepting it all. -/
def TakesWhole (s : Socket) (call : Call) : Prop := ∀ frame ∈ call.frame s, s.next < 0 ∨ frame.length ≤ s.next

/-- What a call has had accepted: its frame if it is a success, nothing otherwise. -/
theorem Call.wire_send {s : Socket} {call : Call} (h : TakesWhole s call) :
    (call.send s).1.wire = s.wire ++ if (call.send s).2 = .success then (call.frame s).getD [] else [] := by
  rw [Call.send_eq]
  unfold TakesWhole at h
  generalize call.frame s = frame at h ⊢
  cases frame with
  | none => simp
  | some frame =>
    rcases h frame rfl with hf | hw
    · simp [sendFrame, nwSend, hf, Int.toNat_of_nonpos hf.le]
    · have hn : ¬s.next < 0 := by omega
      simp [sendFrame, nwSend, hn, take_of_length_le (show frame.length ≤ s.next.toNat by omega)]

/-- A connection, and the frames whose calls were a success. -/
def step (c : Socket × List Bytes) (call : Call) : Socket × List Bytes :=
  ((call.send c.1).1, c.2 ++ if (call.send c.1).2 = .success then (call.frame c.1).toList else [])

/-- A call that is a success has had every byte of its frame accepted, in order, exactly when the socket does not accept a part of the
frame; and as long as it does not, what the socket has accepted are the frames of the calls that were a success, one after the other. -/
theorem send_whole_iff (s : Socket) (call : Call) :
    (((call.send s).2 = .success → ∃ frame, call.frame s = some frame ∧ (call.send s).1.wire = s.wire ++ frame) ↔ TakesWhole s call) ∧
      ∀ calls, Meets step (fun c call => TakesWhole c.1 call) (s, []) calls →
        (calls.foldl step (s, [])).1.wire = s.wire ++ (calls.foldl step (s, [])).2.flatten := by
  refine ⟨⟨fun h frame hf => ?_, fun h hs => ?_⟩, fun calls h => ?_⟩
  · by_contra hp
    rw [not_or, Int.not_lt] at hp
    simp only [Call.send_eq, Option.mem_def.mp hf, sendFrame, nwSend, Int.not_lt.mpr hp.1, if_false, true_implies] at h
    obtain ⟨_, heq, hw⟩ := h
    cases heq
    have hl := congrArg length (append_cancel_left hw)
    rw [length_take] at hl
    omega
  · have hw := Call.wire_send h
    rw [if_pos hs] at hw
    cases hf : call.frame s with
    | none => simp [Call.send_eq, hf] at hs
    | some frame => exact ⟨frame, rfl, by rw [hw, hf, Option.getD_some]⟩
  · refine Meets.invariant (I := fun c => c.1.wire = s.wire ++ c.2.flatten) (fun c call hc hcl => ?_) (by simp) h
    rw [step, Call.wire_send hcl, hc, flatten_append, append_assoc]
    split
    · cases call.frame c.1 <;> simp
    · simp

/-- A client sends two texts. The socket accepts three bytes of the first frame; both calls are a success, and the second frame starts in
the middle of the first. -/
theorem send_part :
    let s : Socket := ⟨3, [3, 7], []⟩
    let out := clientSendText 0 [104] s
    out.2 = .success ∧ out.1.wire = [0x81, 0x81, 0] ∧ (clientSendText 0 [105] out.1).2 = .success ∧
      (clientSendText 0 [105] out.1).1.wire = [0x81, 0x81, 0, 0x81, 0x81, 0, 0, 0, 0, 105] := by
  decide

end Libft.Networking.WebSocket
