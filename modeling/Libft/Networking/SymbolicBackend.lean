import Libft.Networking.SecureChannel

/-!
# A symbolic backend

A backend whose boxes spell out the key, the nonce and the associated data they were sealed under, in front of the plaintext. It is
ideal, so what is proved of an ideal backend is not proved of nothing, and it computes, so runs can be evaluated.
-/

namespace Libft.Networking

open Bytes List

/-- A byte string that can be told from what follows it: every byte is announced by a one, and the end by a zero. -/
def delimit : Bytes → Bytes
  | [] => [0]
  | byte :: rest => 1 :: byte :: delimit rest

@[simp] theorem length_delimit (data : Bytes) : (delimit data).length = 2 * data.length + 1 := by
  induction data with
  | nil => rfl
  | cons byte tl ih =>
    simp only [delimit, length_cons, ih]
    omega

theorem delimit_append_inj {a b s t : Bytes} (h : delimit a ++ s = delimit b ++ t) : a = b ∧ s = t := by
  induction a generalizing b with
  | nil =>
    cases b with
    | nil => simpa [delimit] using h
    | cons byte tl => simp [delimit] at h
  | cons byte tl ih =>
    cases b with
    | nil => simp [delimit] at h
    | cons byte' tl' =>
      simp only [delimit, cons_append, cons.injEq, true_and] at h
      obtain ⟨rfl, h⟩ := h
      obtain ⟨rfl, rfl⟩ := ih h
      exact ⟨rfl, rfl⟩

/-- What stands in front of the plaintext of a symbolic box. -/
def symbolicLabel (key nonce associatedData : Bytes) : Bytes :=
  List.replicate tagSize 0 ++ (delimit key ++ (delimit nonce ++ delimit associatedData))

theorem symbolicLabel_append_inj {key nonce ad key' nonce' ad' s t : Bytes}
    (h : symbolicLabel key nonce ad ++ s = symbolicLabel key' nonce' ad' ++ t) : key = key' ∧ nonce = nonce' ∧ ad = ad' := by
  simp only [symbolicLabel, append_assoc] at h
  obtain ⟨hk, h⟩ := delimit_append_inj (append_cancel_left h)
  obtain ⟨hnc, h⟩ := delimit_append_inj h
  exact ⟨hk, hnc, (delimit_append_inj h).1⟩

/-- Open a symbolic box: its label is the expected one. -/
def symbolicOpen (key nonce associatedData box : Bytes) : Option Bytes :=
  let label := symbolicLabel key nonce associatedData
  if box.take label.length = label then some (box.drop label.length) else none

theorem length_deriveKeyUpdate (k : TrafficKey) (ep : UInt64) : (writeU64 ep ++ k.key.take 24).length = 32 := by
  simp [k.key_length]

/-- The symbolic backend. A derived key is the epoch in front of the key it is derived from. -/
def symbolicBackend : CryptoBackend where
  seal_ key nonce ad plaintext := symbolicLabel key nonce ad ++ plaintext
  open_ := symbolicOpen
  deriveKeyUpdate k epoch :=
    ⟨writeU64 epoch ++ k.key.take 24, k.initializationVector, length_deriveKeyUpdate k epoch, k.initializationVector_length⟩
  hmacSha256 key _ := key
  sha256 data := (data ++ List.replicate 32 0).take 32
  publicKey privateKey := privateKey
  deriveSessionKeys _ _ _ _ := some (.wiped, .wiped)

theorem symbolicOpen_eq_some (key nonce ad box p : Bytes) :
    symbolicOpen key nonce ad box = some p ↔ box = symbolicLabel key nonce ad ++ p := by
  unfold symbolicOpen
  constructor
  · intro h
    simp only at h
    split at h
    · rename_i hl
      rw [← Option.some.inj h]
      conv_lhs => rw [← take_append_drop (symbolicLabel key nonce ad).length box, hl]
    · cases h
  · rintro rfl
    simp

theorem symbolicBackend_ideal : symbolicBackend.Ideal where
  open_eq_some := symbolicOpen_eq_some
  seal_inj _ _ _ _ _ _ _ _ h := symbolicLabel_append_inj h
  length_seal key nonce ad plaintext := by
    simp only [symbolicBackend, symbolicLabel, length_append, length_replicate]
    omega

end Libft.Networking
