import Libft.Lib.Window
import Libft.Networking.SymbolicBackend
import Mathlib.Order.Bounds.Basic

/-!
# Replay protection of the secure channel

A run is any list of operations on a freshly initialised channel; its log holds the epoch and the number of every packet that an
open accepted. `Protects` is the invariant: each of the two windows describes exactly the numbers the log has for its epoch, and
no epoch of the log is above the receive epoch, so that an epoch which rotates in has no numbers yet.
-/

namespace Libft.Networking

open UInt64 SecureChannel Window BitVec List ReplayWindow
open UInt64 (toNat_sub_of_le not_lt not_le le_of_lt le_trans)

/-! ## The replay window is a window of 64 numbers -/

/-- A replay window as a window over the natural numbers. -/
def ReplayWindow.toWindow (W : ReplayWindow) : Window 64 :=
  ⟨W.hasReceivedPacket, W.highestReceivedPacket.toNat, W.receivedWindow.toBitVec⟩

namespace ReplayWindow

theorem toNat_lt_64 {d : UInt64} (h : d < 64) : d.toNat < 64 := by
  simpa [lt_iff_toNat_lt] using h

/-- A shift of a word by less than its width is the shift of its bits. -/
theorem toBitVec_shiftLeft (bits d : UInt64) (h : d < 64) : (bits <<< d).toBitVec = bits.toBitVec <<< d.toNat := by
  have hm : (d.toBitVec % 64).toNat = d.toNat := by
    rw [toNat_umod]
    exact Nat.mod_eq_of_lt (toNat_lt_64 h)
  rw [UInt64.toBitVec_shiftLeft, shiftLeft_eq', hm]

/-- A mask of one bit tests that bit. -/
theorem mask_eq_zero_iff (bits d : UInt64) (h : d < 64) : bits &&& ((1 : UInt64) <<< d) = 0 ↔ bits.toBitVec.getLsbD d.toNat = false := by
  have hd := toNat_lt_64 h
  rw [← UInt64.toBitVec_inj, UInt64.toBitVec_and, toBitVec_shiftLeft 1 d h]
  constructor
  · intro he
    have := congrArg (fun b => b.getLsbD d.toNat) he
    simpa [getLsbD_shiftLeft, hd] using this
  · intro hb
    apply eq_of_getLsbD_eq
    intro i hi
    have ho : (1 : UInt64).toBitVec = 1#64 := rfl
    rw [getLsbD_and, getLsbD_shiftLeft, ho, getLsbD_one (by omega)]
    by_cases hid : i = d.toNat
    · subst hid
      simp [hb]
    · have : i < d.toNat ∨ i - d.toNat ≠ 0 := by omega
      rcases this with hlt | hne
      · simp [hlt]
      · simp [hne]

theorem accepts_toWindow (W : ReplayWindow) (n : UInt64) : W.acceptsPacketNumber n = W.toWindow.accepts n.toNat := by
  unfold acceptsPacketNumber accepts toWindow
  by_cases hs : W.hasReceivedPacket = false
  · simp [hs]
  rw [if_neg hs, if_neg hs]
  by_cases hlt : W.highestReceivedPacket < n
  · rw [if_pos hlt, if_pos (lt_iff_toNat_lt.1 hlt)]
  have hd : (W.highestReceivedPacket - n).toNat = W.highestReceivedPacket.toNat - n.toNat := toNat_sub_of_le _ _ (not_lt.1 hlt)
  rw [if_neg hlt, if_neg fun h => hlt (lt_iff_toNat_lt.2 h)]
  by_cases hfar : 64 ≤ W.highestReceivedPacket - n
  · have : 64 ≤ W.highestReceivedPacket.toNat - n.toNat := hd ▸ le_iff_toNat_le.1 hfar
    rw [if_pos hfar, if_pos this]
  · have hnr := not_le.1 hfar
    have : ¬64 ≤ W.highestReceivedPacket.toNat - n.toNat := by
      have := toNat_lt_64 hnr
      omega
    rw [if_neg hfar, if_neg this]
    simp only [mask_eq_zero_iff _ _ hnr, hd]
    simp

theorem record_toWindow (W : ReplayWindow) (n : UInt64) : (W.recordPacketNumber n).toWindow = W.toWindow.record n.toNat := by
  unfold recordPacketNumber record toWindow
  by_cases hs : W.hasReceivedPacket = false
  · simp [hs]
  have hsn : W.hasReceivedPacket = true := by simpa using hs
  rw [if_neg hs, if_neg hs]
  by_cases hlt : W.highestReceivedPacket < n
  · have hd : (n - W.highestReceivedPacket).toNat = n.toNat - W.highestReceivedPacket.toNat := toNat_sub_of_le _ _ (le_of_lt hlt)
    rw [if_pos hlt, if_pos (lt_iff_toNat_lt.1 hlt)]
    by_cases hfar : 64 ≤ n - W.highestReceivedPacket
    · have : 64 ≤ n.toNat - W.highestReceivedPacket.toNat := hd ▸ le_iff_toNat_le.1 hfar
      simp [hfar, this, hsn]
    · have hnr := not_le.1 hfar
      have : ¬64 ≤ n.toNat - W.highestReceivedPacket.toNat := by
        have := toNat_lt_64 hnr
        omega
      simp [hfar, this, hsn, toBitVec_shiftLeft _ _ hnr, hd]
  have hd : (W.highestReceivedPacket - n).toNat = W.highestReceivedPacket.toNat - n.toNat := toNat_sub_of_le _ _ (not_lt.1 hlt)
  rw [if_neg hlt, if_neg fun h => hlt (lt_iff_toNat_lt.2 h)]
  by_cases hnr : W.highestReceivedPacket - n < 64
  · have : W.highestReceivedPacket.toNat - n.toNat < 64 := hd ▸ toNat_lt_64 hnr
    simp [hnr, this, toBitVec_shiftLeft _ _ hnr, hd]
  · have : ¬W.highestReceivedPacket.toNat - n.toNat < 64 := fun h =>
      hnr (lt_iff_toNat_lt.2 (by simpa [hd] using h))
    simp [hnr, this]

end ReplayWindow

/-! ## Runs -/

/-- An operation on a secure channel. -/
inductive ChannelOp where
  | seal_ (storage : Bool) (packetNumber : UInt64) (associatedData plaintext : Bytes)
  | open_ (storage : Bool) (packetNumber : UInt64) (associatedData sealed : Bytes)
  | openAtEpoch (storage : Bool) (packetNumber keyEpoch : UInt64) (associatedData sealed : Bytes)
  | updateKeyEpoch (nextEpoch : UInt64)
  | updateSendKeyEpoch (nextEpoch : UInt64)
  | updateReceiveKeyEpoch (nextEpoch : UInt64)
  | clearPreviousReceiveKey

/-- A channel, and the epoch and number of every packet it has opened. -/
structure ChannelRun where
  channel : SecureChannel
  accepted : List (UInt64 × UInt64) := []

namespace ChannelRun

/-- The channel after an operation that may be refused, which leaves it as it was. -/
def update (r : ChannelRun) : Except FtError SecureChannel → ChannelRun
  | .ok ch => { r with channel := ch }
  | .error _ => r

/-- The run after an open: the packet is logged when it was accepted. -/
def opened (r : ChannelRun) (ep packetNumber : UInt64) : Option (Bytes × SecureChannel) → ChannelRun
  | some (_, ch) => ⟨ch, r.accepted ++ [(ep, packetNumber)]⟩
  | none => r

/-- One operation. -/
def step (B : CryptoBackend) (r : ChannelRun) : ChannelOp → ChannelRun
  | .seal_ storage n ad plaintext =>
    match r.channel.seal_ B storage n ad plaintext with
    | some (_, ch) => { r with channel := ch }
    | none => r
  | .open_ storage n ad box => r.opened r.channel.receiveKeyEpoch n (r.channel.open_ B storage n ad box)
  | .openAtEpoch storage n ep ad box => r.opened ep n (r.channel.openAtEpoch B storage n ep ad box)
  | .updateKeyEpoch ep => r.update (r.channel.updateKeyEpoch B ep)
  | .updateSendKeyEpoch ep => r.update (r.channel.updateSendKeyEpoch B ep)
  | .updateReceiveKeyEpoch ep => r.update (r.channel.updateReceiveKeyEpoch B ep)
  | .clearPreviousReceiveKey => r.update r.channel.clearPreviousReceiveKey

/-- A run of operations. -/
def run (B : CryptoBackend) (r : ChannelRun) (ops : List ChannelOp) : ChannelRun := ops.foldl (step B) r

/-- The run of no operations on a channel that was just given its keys. -/
def fresh (sendKey receiveKey : TrafficKey) : ChannelRun :=
  ⟨{ initialised := true, sendKey := sendKey, receiveKey := receiveKey }, []⟩

end ChannelRun

/-- The numbers a log has for an epoch. -/
def numbers (log : List (UInt64 × UInt64)) (ep : UInt64) : Set ℕ := {k | ∃ n, (ep, n) ∈ log ∧ n.toNat = k}

variable {log : List (UInt64 × UInt64)} {ep : UInt64}

theorem toNat_mem_numbers {n : UInt64} : n.toNat ∈ numbers log ep ↔ (ep, n) ∈ log := by
  constructor
  · rintro ⟨m, hm, he⟩
    rwa [← UInt64.toNat_inj.1 he]
  · exact fun h => ⟨n, h, rfl⟩

theorem numbers_append (log : List (UInt64 × UInt64)) (ep n : UInt64) :
    numbers (log ++ [(ep, n)]) ep = insert n.toNat (numbers log ep) := by
  ext k
  simp only [numbers, mem_append, mem_singleton, Prod.mk.injEq, true_and, Set.mem_ofPred_eq, Set.mem_insert_iff]
  constructor
  · rintro ⟨m, hm | rfl, rfl⟩
    · exact .inr ⟨m, hm, rfl⟩
    · exact .inl rfl
  · rintro (rfl | ⟨m, hm, rfl⟩)
    · exact ⟨n, .inr rfl, rfl⟩
    · exact ⟨m, .inl hm, rfl⟩

theorem numbers_append_ne (log : List (UInt64 × UInt64)) {other : UInt64} (n : UInt64) (h : other ≠ ep) :
    numbers (log ++ [(ep, n)]) other = numbers log other := by
  ext k
  simp [numbers, h]

/-- An epoch above every epoch of the log has no numbers. -/
theorem numbers_eq_empty {next : UInt64} (h : ∀ p ∈ log, p.1 ≤ ep) (hlt : ep < next) : numbers log next = ∅ := by
  rw [Set.eq_empty_iff_forall_notMem]
  rintro k ⟨n, hn, -⟩
  exact not_lt.2 (h _ hn) hlt

/-- The invariant of a run. -/
structure Protects (r : ChannelRun) : Prop where
  initialised : r.channel.initialised = true
  epoch_le : ∀ p ∈ r.accepted, p.1 ≤ r.channel.receiveKeyEpoch
  current : r.channel.received.toWindow.Tracks (numbers r.accepted r.channel.receiveKeyEpoch)
  previous_lt : r.channel.hasPreviousReceiveKey = true → r.channel.previousReceiveKeyEpoch < r.channel.receiveKeyEpoch
  previous : r.channel.hasPreviousReceiveKey = true →
    r.channel.previousReceived.toWindow.Tracks (numbers r.accepted r.channel.previousReceiveKeyEpoch)
  nodup : r.accepted.Nodup

namespace Protects

variable {r : ChannelRun} {W : ReplayWindow} {n : UInt64} {B : CryptoBackend}

theorem fresh (sendKey rk : TrafficKey) : Protects (ChannelRun.fresh sendKey rk) where
  initialised := rfl
  epoch_le := by simp [ChannelRun.fresh]
  current := by
    have : numbers (ChannelRun.fresh sendKey rk).accepted (ChannelRun.fresh sendKey rk).channel.receiveKeyEpoch
        = ∅ := by simp [numbers, ChannelRun.fresh]
    rw [this]
    exact tracks_empty
  previous_lt := by simp [ChannelRun.fresh]
  previous := by simp [ChannelRun.fresh]
  nodup := nodup_nil

/-- A number that the window of an epoch accepts is not in the log of the epoch. -/
theorem notMem_of_accepts (ht : W.toWindow.Tracks (numbers log ep)) (ha : W.acceptsPacketNumber n = true) : (ep, n) ∉ log := by
  rw [accepts_toWindow, accepts_iff ht (by decide)] at ha
  exact fun h => ha.1 (toNat_mem_numbers.2 h)

theorem nodup_append_singleton {p : UInt64 × UInt64} (h : log.Nodup) (hp : p ∉ log) : (log ++ [p]).Nodup := by
  rw [nodup_append]
  refine ⟨h, by simp, fun a ha b hb => ?_⟩
  rw [mem_singleton.1 hb]
  exact fun he => hp (he ▸ ha)

/-- Recording a number keeps the window of an epoch and the log of the epoch in step. -/
theorem tracks_record (ht : W.toWindow.Tracks (numbers log ep)) (n : UInt64) :
    (W.recordPacketNumber n).toWindow.Tracks (numbers (log ++ [(ep, n)]) ep) := by
  rw [record_toWindow, numbers_append]
  exact ht.record (by decide) n.toNat

/-- An epoch that rotates in starts with an empty window, and has no numbers. -/
theorem tracks_next (h : Protects r) {next : UInt64} (hlt : r.channel.receiveKeyEpoch < next) :
    (({} : ReplayWindow)).toWindow.Tracks (numbers r.accepted next) := by
  rw [numbers_eq_empty h.epoch_le hlt]
  exact tracks_empty

/-- An open logs a packet once, in the window of the key that opened it. -/
theorem opened (h : Protects r) (storage : Bool) (n ep : UInt64) (ad box : Bytes) :
    Protects (r.opened ep n (r.channel.openAtEpoch B storage n ep ad box)) := by
  cases ho : r.channel.openAtEpoch B storage n ep ad box with
  | none => exact h
  | some rs =>
    obtain ⟨p, ch⟩ := rs
    rcases openAtEpoch_eq_some ho with ⟨rfl, ha, -, rfl⟩ | ⟨hne, hh, rfl, ha, -, rfl⟩
    · refine ⟨h.initialised, ?_, tracks_record h.current n, h.previous_lt, fun hp => ?_, ?_⟩
      · simpa [ChannelRun.opened, or_imp, forall_and] using fun a b hab => h.epoch_le (a, b) hab
      · have hlt := h.previous_lt hp
        have hne : r.channel.previousReceiveKeyEpoch ≠ r.channel.receiveKeyEpoch := fun he => by simp [he] at hlt
        simpa only [ChannelRun.opened, numbers_append_ne _ n hne] using h.previous hp
      · exact nodup_append_singleton h.nodup (notMem_of_accepts h.current ha)
    · refine ⟨h.initialised, ?_, ?_, h.previous_lt, fun hp => tracks_record (h.previous hp) n, ?_⟩
      · have hlt := le_of_lt (h.previous_lt hh)
        simpa [ChannelRun.opened, or_imp, forall_and, hlt] using fun a b hab => h.epoch_le (a, b) hab
      · simpa only [ChannelRun.opened, numbers_append_ne _ n hne.symm] using h.current
      · exact nodup_append_singleton h.nodup (notMem_of_accepts (h.previous hh) ha)

/-- Every operation keeps the invariant. -/
theorem step (h : Protects r) (op : ChannelOp) : Protects (r.step B op) := by
  cases op with
  | seal_ s n ad pl =>
    simp only [ChannelRun.step]
    split
    · rename_i box ch hs
      obtain ⟨-, -, rfl⟩ := seal_eq_some hs
      exact { h with }
    · exact h
  | open_ s n ad box => exact h.opened s n _ ad box
  | openAtEpoch s n ep ad box => exact h.opened s n ep ad box
  | updateKeyEpoch ep =>
    simp only [ChannelRun.step, updateKeyEpoch]
    split
    · exact h
    split
    · exact h
    · rename_i hle
      have hlt : r.channel.receiveKeyEpoch < ep := not_le.1 fun hr => hle (.inr hr)
      exact ⟨h.initialised, fun p hp => le_trans (h.epoch_le p hp) (le_of_lt hlt), h.tracks_next hlt,
        fun hp => UInt64.lt_trans (h.previous_lt hp) hlt, h.previous, h.nodup⟩
  | updateSendKeyEpoch ep =>
    simp only [ChannelRun.step, updateSendKeyEpoch]
    split
    · exact h
    split
    · exact h
    · exact { h with }
  | updateReceiveKeyEpoch ep =>
    simp only [ChannelRun.step, updateReceiveKeyEpoch]
    split
    · exact h
    split
    · exact h
    · rename_i hle
      have hlt := not_le.1 hle
      exact ⟨h.initialised, fun p hp => le_trans (h.epoch_le p hp) (le_of_lt hlt), h.tracks_next hlt,
        fun _ => hlt, fun _ => h.current, h.nodup⟩
  | clearPreviousReceiveKey =>
    simp only [ChannelRun.step, clearPreviousReceiveKey]
    split
    · exact h
    split
    · exact h
    · exact { h with previous_lt := nofun, previous := nofun }

/-- Every run keeps the invariant. -/
theorem run (h : Protects r) (ops : List ChannelOp) : Protects (r.run B ops) := by
  induction ops generalizing r with
  | nil => exact h
  | cons op ops ih => exact ih (h.step op)

/-- Under the current key, a number that is not in the log and is above the highest of the epoch, or less than 64 below it, is
accepted by the window. -/
theorem accepts_of_notMem (h : Protects r) (hn : (r.channel.receiveKeyEpoch, n) ∉ r.accepted)
    (hnr : ∀ m, IsGreatest {k | (r.channel.receiveKeyEpoch, k) ∈ r.accepted} m → m < n ∨ m.toNat - n.toNat < 64) :
    r.channel.received.acceptsPacketNumber n = true := by
  rw [accepts_toWindow, accepts_iff h.current (by decide)]
  refine ⟨fun hmem => hn (toNat_mem_numbers.1 hmem), fun k hk => ?_⟩
  -- the highest number of the epoch is the window's own
  obtain ⟨m, hm, hx⟩ := h.current.mem (h.current.seen.2 ⟨k, hk⟩)
  have hle := h.current.le k hk
  have hg : IsGreatest {k | (r.channel.receiveKeyEpoch, k) ∈ r.accepted} m :=
    ⟨hm, fun j hj => le_iff_toNat_le.2 (hx ▸ h.current.le _ (toNat_mem_numbers.2 hj))⟩
  rcases hnr m hg with hlt | hlt
  · have := lt_iff_toNat_lt.1 hlt
    omega
  · omega

end Protects

/-- In every run of a freshly keyed channel each pair of epoch and packet number is accepted at most once, and a packet sealed under
the current receive key is accepted when its number was not accepted before and is above the highest accepted number of the epoch or
less than 64 below it. -/
theorem accepted_at_most_once_and_in_window (B : CryptoBackend) (hB : B.Ideal) (sendKey receiveKey : TrafficKey)
    (ops : List ChannelOp) :
    let r := (ChannelRun.fresh sendKey receiveKey).run B ops
    r.accepted.Nodup ∧
    ∀ (n : UInt64) (ad p : Bytes),
      (r.channel.receiveKeyEpoch, n) ∉ r.accepted →
      (∀ m, IsGreatest {k | (r.channel.receiveKeyEpoch, k) ∈ r.accepted} m → m < n ∨ m.toNat - n.toNat < 64) →
      let box := B.seal_ r.channel.receiveKey.key (prepareNonce r.channel.receiveKey.initializationVector n) ad
        p
      (∃ ch, r.channel.open_ B true n ad box = some (p, ch)) ∧
      (r.step B (.open_ true n ad box)).accepted = r.accepted ++ [(r.channel.receiveKeyEpoch, n)] := by
  intro r
  have h : Protects r := (Protects.fresh sendKey receiveKey).run ops
  refine ⟨h.nodup, fun n ad p hn hnr => ?_⟩
  have ho := open_of_accepts (B := B) h.initialised (h.accepts_of_notMem hn hnr) ad
    (B.seal_ r.channel.receiveKey.key (prepareNonce r.channel.receiveKey.initializationVector n) ad p)
  rw [(hB.open_eq_some _ _ _ _ p).2 rfl] at ho
  exact ⟨⟨_, ho⟩, by simp [ChannelRun.step, ho, ChannelRun.opened]⟩

/-- The hypothesis is met: a symbolic channel that has opened packet 5 and rotated its receive key opens packet 5 of the new epoch. -/
theorem accepted_at_most_once_and_in_window_symbolic :
    symbolicBackend.Ideal ∧
    let box := symbolicBackend.seal_ TrafficKey.wiped.key
      (prepareNonce TrafficKey.wiped.initializationVector 5) [] [7]
    let r := (ChannelRun.fresh .wiped .wiped).run symbolicBackend [.open_ true 5 [] box, .updateReceiveKeyEpoch 1]
    r.accepted = [(0, 5)] ∧ r.channel.receiveKeyEpoch = 1 ∧ ∃ ch, r.channel.open_ symbolicBackend true 5 []
      (symbolicBackend.seal_ r.channel.receiveKey.key
        (prepareNonce r.channel.receiveKey.initializationVector 5) [] [9]) = some ([9], ch) := by
  refine ⟨symbolicBackend_ideal, ?_⟩
  intro box r
  have hl : r.accepted = [(0, 5)] := by decide
  have he : r.channel.receiveKeyEpoch = 1 := by decide
  have hn : ∀ m, (r.channel.receiveKeyEpoch, m) ∉ r.accepted := by simp [hl, he]
  exact ⟨hl, he, ((accepted_at_most_once_and_in_window symbolicBackend symbolicBackend_ideal .wiped .wiped _).2 5 [] [9]
    (hn 5) fun m hm => absurd hm.1 (hn m)).1⟩

end Libft.Networking
