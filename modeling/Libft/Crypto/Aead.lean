import Libft.Lib.Bytes
import Libft.Lib.Scan
import Mathlib.Algebra.GroupWithZero.Nat

/-!
# ChaCha20, Poly1305 and the two together

`crypto_chacha20.cpp`, `crypto_poly1305.cpp` and `crypto_aead.cpp`. Arrays of a fixed size are byte strings of that length; the state of
the cipher is a list of sixteen words. Pointers are not null, and memory is there when it is asked for. What is wiped at the end of a
function is not modelled.
-/

namespace Libft.Crypto

open List UInt64

/-- `const uint8_t key[32]` -/
abbrev Key : Type := { key : Bytes // key.length = 32 }

/-- `const uint8_t nonce[12]` -/
abbrev Nonce : Type := { nonce : Bytes // nonce.length = 12 }

/-- `uint8_t authentication_tag[16]` -/
abbrev Tag : Type := { tag : Bytes // tag.length = 16 }

/-- The error codes of the module that depend on the data. -/
inductive Error where
  | outOfRange
  | permissionDenied
  deriving DecidableEq

/-- `load_u32_le` at an offset. -/
def loadU32Le (data : Bytes) (offset : ℕ) : UInt32 :=
  (data.getD offset 0).toUInt32 ||| ((data.getD (offset + 1) 0).toUInt32 <<< 8) ||| ((data.getD (offset + 2) 0).toUInt32 <<< 16) |||
    ((data.getD (offset + 3) 0).toUInt32 <<< 24)

/-- `store_u32_le` -/
def storeU32Le (value : UInt32) : Bytes := [value.toUInt8, (value >>> 8).toUInt8, (value >>> 16).toUInt8, (value >>> 24).toUInt8]

/-- `store_u64_le` -/
def storeU64Le (value : UInt64) : Bytes := (range 8).map fun index => (value >>> ofNat (index * 8)).toUInt8

/-! ## ChaCha20 -/

/-- `rotate_left` -/
def rotateLeft (value bits : UInt32) : UInt32 := (value <<< bits) ||| (value >>> (32 - bits))

/-- The first or the second half of `quarter_round`. -/
def halfRound (state : List UInt32) (a b c d : ℕ) (first second : UInt32) : List UInt32 :=
  let state := state.set a (state.getD a 0 + state.getD b 0)
  let state := state.set d (rotateLeft (state.getD d 0 ^^^ state.getD a 0) first)
  let state := state.set c (state.getD c 0 + state.getD d 0)
  state.set b (rotateLeft (state.getD b 0 ^^^ state.getD c 0) second)

/-- `quarter_round` -/
def quarterRound (state : List UInt32) (a b c d : ℕ) : List UInt32 := halfRound (halfRound state a b c d 16 12) a b c d 8 7

/-- A turn of the loop of `crypto_chacha20_block`. -/
def doubleRound (state : List UInt32) : List UInt32 :=
  let state := quarterRound state 0 4 8 12
  let state := quarterRound state 1 5 9 13
  let state := quarterRound state 2 6 10 14
  let state := quarterRound state 3 7 11 15
  let state := quarterRound state 0 5 10 15
  let state := quarterRound state 1 6 11 12
  let state := quarterRound state 2 7 8 13
  quarterRound state 3 4 9 14

/-- The `state` of `crypto_chacha20_block`. -/
def initialState (key : Key) (counter : UInt32) (nonce : Nonce) : List UInt32 :=
  [0x61707865, 0x3320646e, 0x79622d32, 0x6b206574] ++ (range 8).map (fun index => loadU32Le key.1 (index * 4)) ++
    [counter, loadU32Le nonce.1 0, loadU32Le nonce.1 4, loadU32Le nonce.1 8]

/-- `crypto_chacha20_block` -/
def chacha20Block (key : Key) (counter : UInt32) (nonce : Nonce) : Bytes :=
  let state := initialState key counter nonce
  let working := (range 10).foldl (fun working _ => doubleRound working) state
  (zipWith (· + ·) working state).flatMap storeU32Le

/-- A turn of the loop of `crypto_chacha20_xor`, with the counter and what is in `staging`: the counter is only moved when there is more
to come. -/
def xorTurn (key : Key) (nonce : Nonce) (s : UInt32 × Bytes) (input : Bytes) : Scan.Turn UInt8 (UInt32 × Bytes) Bytes :=
  if input = [] then .stop s.2 []
  else
    let staging := s.2 ++ zipWith (· ^^^ ·) input (chacha20Block key s.1 nonce)
    if input.drop 64 = [] then .next (s.1, staging) (input.drop 64)
    else if s.1 = 0xffffffff then .fail
    else .next (s.1 + 1, staging) (input.drop 64)

/-- `crypto_chacha20_xor` -/
def chacha20Xor (key : Key) (nonce : Nonce) (counter : UInt32) (input : Bytes) : Except Error Bytes :=
  if counter = 0 ∧ input.length ≠ 0 then .error .outOfRange
  else
    match Scan.loop (xorTurn key nonce) (counter, []) input with
    | none => .error .outOfRange
    | some (output, _) => .ok output

/-! ## Poly1305 -/

/-- A number in five limbs of 26 bits. -/
structure Limbs where
  l₀ : UInt32
  l₁ : UInt32
  l₂ : UInt32
  l₃ : UInt32
  l₄ : UInt32

/-- The limbs `t0` to `t4` of a block; `top` is the bit after it. -/
def blockLimbs (block : Bytes) (top : UInt32) : Limbs where
  l₀ := loadU32Le block 0 &&& 0x3ffffff
  l₁ := (loadU32Le block 3 >>> 2) &&& 0x3ffffff
  l₂ := (loadU32Le block 6 >>> 4) &&& 0x3ffffff
  l₃ := (loadU32Le block 9 >>> 6) &&& 0x3ffffff
  l₄ := (loadU32Le block 12 >>> 8) ||| top

/-- The limbs `r0` to `r4` of the key. -/
def keyLimbs (key : Bytes) : Limbs where
  l₀ := loadU32Le key 0 &&& 0x3ffffff
  l₁ := (loadU32Le key 3 >>> 2) &&& 0x3ffff03
  l₂ := (loadU32Le key 6 >>> 4) &&& 0x3ffc0ff
  l₃ := (loadU32Le key 9 >>> 6) &&& 0x3f03fff
  l₄ := (loadU32Le key 12 >>> 8) &&& 0x00fffff

/-- The bits of a limb. -/
def limbMask : UInt32 := 0x3ffffff

/-- What `crypto_poly1305_auth` does with a block, in its loop and after it: add the block, multiply by the key and carry. -/
def absorb (r h t : Limbs) : Limbs :=
  let h₀ := (h.l₀ + t.l₀).toUInt64
  let h₁ := (h.l₁ + t.l₁).toUInt64
  let h₂ := (h.l₂ + t.l₂).toUInt64
  let h₃ := (h.l₃ + t.l₃).toUInt64
  let h₄ := (h.l₄ + t.l₄).toUInt64
  let r₀ := r.l₀.toUInt64
  let r₁ := r.l₁.toUInt64
  let r₂ := r.l₂.toUInt64
  let r₃ := r.l₃.toUInt64
  let r₄ := r.l₄.toUInt64
  let d₀ := h₀ * r₀ + h₁ * 5 * r₄ + h₂ * 5 * r₃ + h₃ * 5 * r₂ + h₄ * 5 * r₁
  let d₁ := h₀ * r₁ + h₁ * r₀ + h₂ * 5 * r₄ + h₃ * 5 * r₃ + h₄ * 5 * r₂
  let d₂ := h₀ * r₂ + h₁ * r₁ + h₂ * r₀ + h₃ * 5 * r₄ + h₄ * 5 * r₃
  let d₃ := h₀ * r₃ + h₁ * r₂ + h₂ * r₁ + h₃ * r₀ + h₄ * 5 * r₄
  let d₄ := h₀ * r₄ + h₁ * r₃ + h₂ * r₂ + h₃ * r₁ + h₄ * r₀
  let d₁ := d₁ + (d₀ >>> 26).toUInt32.toUInt64
  let d₂ := d₂ + (d₁ >>> 26).toUInt32.toUInt64
  let d₃ := d₃ + (d₂ >>> 26).toUInt32.toUInt64
  let d₄ := d₄ + (d₃ >>> 26).toUInt32.toUInt64
  let l₀ : UInt32 := (d₀.toUInt32 &&& limbMask) + (d₄ >>> 26).toUInt32 * 5
  { l₀ := l₀ &&& limbMask
    l₁ := (d₁.toUInt32 &&& limbMask) + (l₀ >>> 26)
    l₂ := d₂.toUInt32 &&& limbMask
    l₃ := d₃.toUInt32 &&& limbMask
    l₄ := d₄.toUInt32 &&& limbMask }

/-- The limbs after the last carries of `crypto_poly1305_auth`, less the modulus if they are not below it. -/
def reduceLimbs (h : Limbs) : Limbs :=
  let h₂ : UInt32 := h.l₂ + (h.l₁ >>> 26)
  let h₃ : UInt32 := h.l₃ + (h₂ >>> 26)
  let h₄ : UInt32 := h.l₄ + (h₃ >>> 26)
  let h₀ : UInt32 := h.l₀ + (h₄ >>> 26) * 5
  let h₁ : UInt32 := (h.l₁ &&& limbMask) + (h₀ >>> 26)
  let h₀ : UInt32 := h₀ &&& limbMask
  let h₂ : UInt32 := h₂ &&& limbMask
  let h₃ : UInt32 := h₃ &&& limbMask
  let h₄ : UInt32 := h₄ &&& limbMask
  let g₀ : UInt32 := h₀ + 5
  let g₁ : UInt32 := h₁ + (g₀ >>> 26)
  let g₂ : UInt32 := h₂ + (g₁ >>> 26)
  let g₃ : UInt32 := h₃ + (g₂ >>> 26)
  let g₄ : UInt32 := h₄ + (g₃ >>> 26) - ((1 : UInt32) <<< 26)
  let mask : UInt32 := (g₄ >>> 31) - 1
  { l₀ := ((g₀ &&& limbMask) &&& mask) ||| (h₀ &&& ~~~mask)
    l₁ := ((g₁ &&& limbMask) &&& mask) ||| (h₁ &&& ~~~mask)
    l₂ := ((g₂ &&& limbMask) &&& mask) ||| (h₂ &&& ~~~mask)
    l₃ := ((g₃ &&& limbMask) &&& mask) ||| (h₃ &&& ~~~mask)
    l₄ := (g₄ &&& mask) ||| (h₄ &&& ~~~mask) }

/-- The bytes of the tag: the four words of the number, with the second half of the key added. -/
def tagBytes (g : Limbs) (key : Bytes) : Bytes :=
  let sum₀ := (g.l₀ ||| (g.l₁ <<< 26)).toUInt64 + (loadU32Le key 16).toUInt64
  let sum₁ := ((g.l₁ >>> 6) ||| (g.l₂ <<< 20)).toUInt64 + (loadU32Le key 20).toUInt64 + (sum₀ >>> 32).toUInt32.toUInt64
  let sum₂ := ((g.l₂ >>> 12) ||| (g.l₃ <<< 14)).toUInt64 + (loadU32Le key 24).toUInt64 + (sum₁ >>> 32).toUInt32.toUInt64
  let sum₃ := ((g.l₃ >>> 18) ||| (g.l₄ <<< 8)).toUInt64 + (loadU32Le key 28).toUInt64 + (sum₂ >>> 32).toUInt32.toUInt64
  storeU32Le sum₀.toUInt32 ++ storeU32Le sum₁.toUInt32 ++ storeU32Le sum₂.toUInt32 ++ storeU32Le sum₃.toUInt32

theorem length_tagBytes (g : Limbs) (key : Bytes) : (tagBytes g key).length = 16 := rfl

/-- `crypto_poly1305_auth`: whole blocks, then what is left with a one after it. -/
def poly1305Auth (message key : Bytes) : Tag :=
  let r := keyLimbs key
  let h := (range (message.length / 16)).foldl
    (fun h i => absorb r h (blockLimbs (message.drop (16 * i)) ((1 : UInt32) <<< 24))) ⟨0, 0, 0, 0, 0⟩
  let rest := message.drop (16 * (message.length / 16))
  let h := if rest.length ≠ 0 then absorb r h (blockLimbs (rest ++ [1]) 0) else h
  ⟨tagBytes (reduceLimbs h) key, length_tagBytes (reduceLimbs h) key⟩

/-! ## Sealing and opening -/

/-- The zeros that fill up a part of the authenticated data. -/
def zeroPadding (size : ℕ) : Bytes := if size % 16 ≠ 0 then replicate (16 - size % 16) 0 else []

/-- `build_authentication_data` -/
def buildAuthenticationData (associatedData ciphertext : Bytes) : Bytes :=
  associatedData ++ (zeroPadding associatedData.length ++ (ciphertext ++ (zeroPadding ciphertext.length ++
    (storeU64Le (ofNat associatedData.length) ++ storeU64Le (ofNat ciphertext.length)))))

/-- `constant_time_equal` -/
def constantTimeEqual (left right : Bytes) : Bool :=
  (zipWith (fun l r => (l, r)) left right).foldl (fun difference lr => difference ||| (lr.1 ^^^ lr.2)) (0 : UInt8) == 0

/-- The tag that sealing makes and opening expects. -/
def authenticationTag (key : Key) (nonce : Nonce) (associatedData ciphertext : Bytes) : Tag :=
  poly1305Auth (buildAuthenticationData associatedData ciphertext) (chacha20Block key 0 nonce)

/-- `crypto_chacha20_poly1305_seal` -/
def chacha20Poly1305Seal (key : Key) (nonce : Nonce) (associatedData plaintext : Bytes) : Except Error (Bytes × Tag) :=
  match chacha20Xor key nonce 1 plaintext with
  | .error e => .error e
  | .ok ciphertext => .ok (ciphertext, authenticationTag key nonce associatedData ciphertext)

/-- `crypto_chacha20_poly1305_open` -/
def chacha20Poly1305Open (key : Key) (nonce : Nonce) (associatedData ciphertext : Bytes) (tag : Tag) : Except Error Bytes :=
  if constantTimeEqual (authenticationTag key nonce associatedData ciphertext).1 tag.1 = false then .error .permissionDenied
  else chacha20Xor key nonce 1 ciphertext

end Libft.Crypto
