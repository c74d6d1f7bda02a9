import Libft.Lib.Bytes
import Mathlib.Logic.Function.Basic

/-!
# HTTP/2 streams and their windows

`http2_stream_manager` and `http2_settings_state`: the open streams, the list of their identifiers, the windows, and the settings of the
other side. Windows and identifiers are numbers: every sum is compared with `windowMax` before it is stored, so nothing overflows. What
a stream has received, its priority and the local window of the connection are left out, as are locks; a frame can be copied.
-/

namespace Libft.Networking.Http2

open Function

/-- The error codes that the stream manager sets. -/
inductive Error where
  | success | alreadyExists | notFound | outOfRange | invalidOperation | invalidState | noMemory
  deriving DecidableEq

/-- The largest window, `0x7FFFFFFF`. -/
def windowMax : ℕ := 0x7fffffff

/-- `http2_stream_state` -/
structure StreamState where
  remoteWindow : ℕ
  localWindow : ℕ
  deriving DecidableEq

/-- `http2_stream_manager` -/
structure StreamManager where
  streams : ℕ → Option StreamState
  identifiers : List ℕ
  initialRemoteWindow : ℕ
  initialLocalWindow : ℕ
  connectionRemoteWindow : ℕ

/-- A window after the initial window has changed. -/
def shifted (window previous new : ℕ) : ℕ :=
  if previous ≤ new then
    if windowMax < window + (new - previous) then windowMax else window + (new - previous)
  else if previous - new < window then window - (previous - new)
  else 0

namespace StreamManager

/-- `initialize` -/
def initial : StreamManager := ⟨fun _ => none, [], 65535, 65535, 65535⟩

/-- `open_stream`. Memory may be missing for the entry of the map, which is not looked at, and for that of the list. -/
def openStream (m : StreamManager) (id : ℕ) (inserts pushes : Bool) : StreamManager × Error :=
  if (m.streams id).isSome then (m, .alreadyExists)
  else
    let m := if inserts then { m with streams := update m.streams id (some ⟨m.initialRemoteWindow, m.initialLocalWindow⟩) } else m
    if pushes then ({ m with identifiers := m.identifiers ++ [id] }, .success) else (m, .noMemory)

/-- `remove_stream_identifier`. The test before the loop compares two constants, which differ. -/
def removeStreamIdentifier (m : StreamManager) (id : ℕ) : StreamManager :=
  if Error.invalidState ≠ .success then m else { m with identifiers := m.identifiers.erase id }

/-- `close_stream` -/
def closeStream (m : StreamManager) (id : ℕ) : StreamManager × Error :=
  if (m.streams id).isNone then (m, .notFound)
  else (removeStreamIdentifier { m with streams := update m.streams id none } id, .success)

/-- The loop of the two functions below over the identifiers. -/
def updateStreams (change : StreamState → StreamState) (streams : ℕ → Option StreamState) : List ℕ → (ℕ → Option StreamState) × Error
  | [] => (streams, .success)
  | id :: rest =>
    match streams id with
    | none => (streams, .notFound)
    | some state => updateStreams change (update streams id (some (change state))) rest

/-- `update_remote_initial_window` -/
def updateRemoteInitialWindow (m : StreamManager) (new : ℕ) : StreamManager × Error :=
  if windowMax < new then (m, .outOfRange)
  else
    let out := updateStreams (fun s => { s with remoteWindow := shifted s.remoteWindow m.initialRemoteWindow new }) m.streams m.identifiers
    ({ m with initialRemoteWindow := new, streams := out.1 }, out.2)

/-- `update_local_initial_window` -/
def updateLocalInitialWindow (m : StreamManager) (new : ℕ) : StreamManager × Error :=
  if windowMax < new then (m, .outOfRange)
  else
    let out := updateStreams (fun s => { s with localWindow := shifted s.localWindow m.initialLocalWindow new }) m.streams m.identifiers
    ({ m with initialLocalWindow := new, streams := out.1 }, out.2)

/-- `increase_remote_window` -/
def increaseRemoteWindow (m : StreamManager) (id increment : ℕ) : StreamManager × Error :=
  if windowMax < increment then (m, .outOfRange)
  else
    match m.streams id with
    | none => (m, .notFound)
    | some s =>
      if windowMax < s.remoteWindow + increment then (m, .outOfRange)
      else ({ m with streams := update m.streams id (some { s with remoteWindow := s.remoteWindow + increment }) }, .success)

/-- `reserve_send_window`, with the two tests of the window of the connection -/
def reserveSendWindow (m : StreamManager) (id length : ℕ) : StreamManager × Error :=
  match m.streams id with
  | none => (m, .notFound)
  | some s =>
    if m.connectionRemoteWindow < length then (m, .invalidOperation)
    else if s.remoteWindow < length then (m, .outOfRange)
    else
      let m := { m with streams := update m.streams id (some { s with remoteWindow := s.remoteWindow - length }) }
      if m.connectionRemoteWindow < length then (m, .invalidOperation)
      else ({ m with connectionRemoteWindow := m.connectionRemoteWindow - length }, .success)

/-- `update_connection_remote_window` -/
def updateConnectionRemoteWindow (m : StreamManager) (increment : ℕ) : StreamManager × Error :=
  if windowMax < increment then (m, .outOfRange)
  else if windowMax < m.connectionRemoteWindow + increment then (m, .outOfRange)
  else ({ m with connectionRemoteWindow := m.connectionRemoteWindow + increment }, .success)

end StreamManager

/-- `http2_settings_state`, with the stream manager that its calls are given -/
structure Settings where
  manager : StreamManager
  headerTableSize : ℕ
  enablePush : Bool
  maxConcurrentStreams : ℕ
  initialLocalWindow : ℕ
  initialRemoteWindow : ℕ
  maxFrameSize : ℕ
  maxHeaderListSize : ℕ

/-- `http2_frame`, as far as `apply_remote_settings` looks at it -/
structure Frame where
  type : UInt8
  flags : UInt8
  payload : Bytes

/-- The pairs of identifier and value that a payload holds, six bytes each. -/
def settingsOf : Bytes → List (ℕ × ℕ)
  | a :: b :: c :: d :: e :: f :: rest => (Bytes.value 0 [a, b], Bytes.value 0 [c, d, e, f]) :: settingsOf rest
  | _ => []

namespace Settings

/-- `initialize` -/
def initial : Settings := ⟨.initial, 4096, true, 0xffffffff, 65535, 65535, 16384, 0⟩

/-- `update_remote_initial_window` -/
def updateRemoteInitialWindow (s : Settings) (new : ℕ) : Settings × Bool :=
  if windowMax < new then (s, false)
  else
    let out := s.manager.updateRemoteInitialWindow new
    if out.2 = .success then ({ s with manager := out.1, initialRemoteWindow := new }, true) else ({ s with manager := out.1 }, false)

/-- `update_local_initial_window` -/
def updateLocalInitialWindow (s : Settings) (new : ℕ) : Settings × Bool :=
  if windowMax < new then (s, false)
  else
    let out := s.manager.updateLocalInitialWindow new
    if out.2 = .success then ({ s with manager := out.1, initialLocalWindow := new }, true) else ({ s with manager := out.1 }, false)

/-- `apply_single_setting` -/
def applySingleSetting (s : Settings) (identifier value : ℕ) : Settings × Bool :=
  if identifier = 1 then ({ s with headerTableSize := value }, true)
  else if identifier = 2 then if 1 < value then (s, false) else ({ s with enablePush := value ≠ 0 }, true)
  else if identifier = 3 then ({ s with maxConcurrentStreams := value }, true)
  else if identifier = 4 then s.updateRemoteInitialWindow value
  else if identifier = 5 then if value < 16384 ∨ 16777215 < value then (s, false) else ({ s with maxFrameSize := value }, true)
  else if identifier = 6 then ({ s with maxHeaderListSize := value }, true)
  else (s, true)

/-- The loop of `apply_remote_settings`. -/
def applySettings (s : Settings) : List (ℕ × ℕ) → Settings × Bool
  | [] => (s, true)
  | (identifier, value) :: rest =>
    let out := s.applySingleSetting identifier value
    if out.2 then applySettings out.1 rest else (out.1, false)

/-- `apply_remote_settings` -/
def applyRemoteSettings (s : Settings) (frame : Frame) : Settings × Bool :=
  if frame.type ≠ 4 then (s, false)
  else if frame.flags &&& 1 ≠ 0 then (s, frame.payload.isEmpty)
  else if frame.payload.length % 6 ≠ 0 then (s, false)
  else s.applySettings (settingsOf frame.payload)

end Settings

end Libft.Networking.Http2
