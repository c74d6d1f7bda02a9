import Libft.Lib.Bytes
import Mathlib.Algebra.GroupWithZero.Nat

/-!
# Texts for bytes

`encoding.cpp`: base64, base64url, base32, hexadecimal and percent encoding, and back. An encoder gives nothing when the text would be
too long for a size; a decoder gives nothing when it refuses the text. The loops that take several bytes or characters a turn are
recursions over the groups, with `none` where the last group is short. Memory is there when it is asked for.
-/

namespace Libft.Encoding

/-- `FT_SYSTEM_SIZE_MAX` -/
def sizeMax : ℕ := 2 ^ 64 - 1

/-- The padding of base64 and base32, `=`. -/
def pad : UInt8 := 0x3d

/-! ## Base64 and base64url -/

/-- `encoding_base64_value`: both alphabets at once. -/
def base64Value (c : UInt8) : Option UInt8 :=
  if 0x41 ≤ c ∧ c ≤ 0x5a then some (c - 0x41)
  else if 0x61 ≤ c ∧ c ≤ 0x7a then some (c - 0x61 + 26)
  else if 0x30 ≤ c ∧ c ≤ 0x39 then some (c - 0x30 + 52)
  else if c = 0x2b ∨ c = 0x2d then some 62
  else if c = 0x2f ∨ c = 0x5f then some 63
  else none

def standardTable : Bytes := ascii "ABCDEFGHIJKLMNOPQRSTUVWXYZabcdefghijklmnopqrstuvwxyz0123456789+/"
def urlTable : Bytes := ascii "ABCDEFGHIJKLMNOPQRSTUVWXYZabcdefghijklmnopqrstuvwxyz0123456789-_"

/-- `encoding_base64_character` -/
def base64Character (value : UInt8) (urlSafe : Bool) : UInt8 :=
  if urlSafe = true then urlTable.getD value.toNat 0 else standardTable.getD value.toNat 0

/-- A turn of the loop of `encoding_base64_encode_internal`, over one, two or three bytes. -/
def base64EncodeGroup (urlSafe padded : Bool) (one : UInt8) (two three : Option UInt8) : Bytes :=
  [base64Character (one >>> 2) urlSafe, base64Character (((one &&& 0x03) <<< 4) ||| (two.getD 0 >>> 4)) urlSafe] ++
  ((if two.isSome then [base64Character (((two.getD 0 &&& 0x0f) <<< 2) ||| (three.getD 0 >>> 6)) urlSafe]
    else if padded = true then [pad] else []) ++
  (if three.isSome then [base64Character (three.getD 0 &&& 0x3f) urlSafe] else if padded = true then [pad] else []))

/-- The loop of `encoding_base64_encode_internal`. -/
def base64EncodeGroups (urlSafe padded : Bool) : Bytes → Bytes
  | [] => []
  | [a] => base64EncodeGroup urlSafe padded a none none
  | [a, b] => base64EncodeGroup urlSafe padded a (some b) none
  | a :: b :: c :: rest => base64EncodeGroup urlSafe padded a (some b) (some c) ++ base64EncodeGroups urlSafe padded rest

/-- `encoding_base64_encode_internal` -/
def base64EncodeInternal (input : Bytes) (urlSafe padded : Bool) : Option Bytes :=
  if sizeMax / 4 * 3 < input.length then none else some (base64EncodeGroups urlSafe padded input)

/-- `encoding_base64_encode` -/
def base64Encode (input : Bytes) : Option Bytes := base64EncodeInternal input false true

/-- `encoding_base64url_encode` -/
def base64urlEncode (input : Bytes) (padded : Bool) : Option Bytes := base64EncodeInternal input true padded

/-- A turn of the second loop of `encoding_base64_decode_internal`: a chunk of four characters, filled up with padding. -/
def base64DecodeChunk (urlSafe : Bool) (one two three four : UInt8) : Option Bytes := do
  let v₁ ← base64Value one
  let v₂ ← base64Value two
  let v₃ ← if three ≠ pad then base64Value three else some 0
  let v₄ ← if four ≠ pad then base64Value four else some 0
  if urlSafe = true ∧ ([one, two, three, four].any fun c => c == 0x2b || c == 0x2f) = true then none
  else
    let triple : UInt32 := (v₁.toUInt32 <<< 18) ||| (v₂.toUInt32 <<< 12) ||| (v₃.toUInt32 <<< 6) ||| v₄.toUInt32
    some ([((triple >>> 16) &&& 0xff).toUInt8] ++ ((if three ≠ pad then [((triple >>> 8) &&& 0xff).toUInt8] else []) ++
      (if four ≠ pad then [(triple &&& 0xff).toUInt8] else [])))

/-- The second loop of `encoding_base64_decode_internal`. -/
def base64DecodeChunks (urlSafe : Bool) : Bytes → Option Bytes
  | [] => some []
  | [a] => base64DecodeChunk urlSafe a pad pad pad
  | [a, b] => base64DecodeChunk urlSafe a b pad pad
  | [a, b, c] => base64DecodeChunk urlSafe a b c pad
  | a :: b :: c :: d :: rest => do
    let bytes ← base64DecodeChunk urlSafe a b c d
    let more ← base64DecodeChunks urlSafe rest
    some (bytes ++ more)

/-- `encoding_base64_decode_internal` -/
def base64DecodeInternal (input : Bytes) (urlSafe : Bool) : Option Bytes :=
  if (input.any fun c => c != pad && (base64Value c).isNone) = true then none
  else if input.length % 4 = 1 ∨ 2 < input.count pad then none
  else base64DecodeChunks urlSafe input

/-- `encoding_base64_decode` -/
def base64Decode (input : Bytes) : Option Bytes := base64DecodeInternal input false

/-- `encoding_base64url_decode` -/
def base64urlDecode (input : Bytes) : Option Bytes := base64DecodeInternal input true

/-! ## Base32 -/

/-- `encoding_base32_value` -/
def base32Value (c : UInt8) : Option UInt8 :=
  if 0x41 ≤ c ∧ c ≤ 0x5a then some (c - 0x41)
  else if 0x61 ≤ c ∧ c ≤ 0x7a then some (c - 0x61)
  else if 0x32 ≤ c ∧ c ≤ 0x37 then some (c - 0x32 + 26)
  else none

def base32Table : Bytes := ascii "ABCDEFGHIJKLMNOPQRSTUVWXYZ234567"

/-- `encoding_base32_character` -/
def base32Character (value : UInt8) : UInt8 := base32Table.getD (value &&& 0x1f).toNat 0

/-- A turn of the loop of `encoding_base32_encode_internal`, over one to five bytes. -/
def base32EncodeGroup (one : UInt8) (two three four five : Option UInt8) : Bytes :=
  [base32Character (one >>> 3), base32Character (((one &&& 0x07) <<< 2) ||| (two.getD 0 >>> 6))] ++
  ((if two.isSome then
    [base32Character ((two.getD 0 >>> 1) &&& 0x1f), base32Character (((two.getD 0 &&& 0x01) <<< 4) ||| (three.getD 0 >>> 4))]
    else [pad, pad]) ++
  ((if three.isSome then [base32Character (((three.getD 0 &&& 0x0f) <<< 1) ||| (four.getD 0 >>> 7))] else [pad]) ++
  ((if four.isSome then
    [base32Character ((four.getD 0 >>> 2) &&& 0x1f), base32Character (((four.getD 0 &&& 0x03) <<< 3) ||| (five.getD 0 >>> 5))]
    else [pad, pad]) ++
  (if five.isSome then [base32Character (five.getD 0 &&& 0x1f)] else [pad]))))

/-- The loop of `encoding_base32_encode_internal`. -/
def base32EncodeGroups : Bytes → Bytes
  | [] => []
  | [a] => base32EncodeGroup a none none none none
  | [a, b] => base32EncodeGroup a (some b) none none none
  | [a, b, c] => base32EncodeGroup a (some b) (some c) none none
  | [a, b, c, d] => base32EncodeGroup a (some b) (some c) (some d) none
  | a :: b :: c :: d :: e :: rest => base32EncodeGroup a (some b) (some c) (some d) (some e) ++ base32EncodeGroups rest

/-- `encoding_base32_encode` -/
def base32Encode (input : Bytes) : Option Bytes :=
  if sizeMax / 8 * 5 < input.length then none else some (base32EncodeGroups input)

/-- The five bytes that eight values spell, one by one. -/
def base32Byte₁ (v₁ v₂ : UInt8) : UInt8 := (v₁ <<< 3) ||| (v₂ >>> 2)
def base32Byte₂ (v₂ v₃ v₄ : UInt8) : UInt8 := ((v₂ &&& 0x03) <<< 6) ||| (v₃ <<< 1) ||| (v₄ >>> 4)
def base32Byte₃ (v₄ v₅ : UInt8) : UInt8 := ((v₄ &&& 0x0f) <<< 4) ||| (v₅ >>> 1)
def base32Byte₄ (v₅ v₆ v₇ : UInt8) : UInt8 := ((v₅ &&& 0x01) <<< 7) ||| (v₆ <<< 2) ||| (v₇ >>> 3)
def base32Byte₅ (v₇ v₈ : UInt8) : UInt8 := ((v₇ &&& 0x07) <<< 5) ||| v₈

/-- `encoding_base32_decode_block`: the bits that are left over must be zero. -/
def base32DecodeBlock : Bytes → Option Bytes
  | [v₁, v₂] => if v₂ &&& 0x03 ≠ 0 then none else some [base32Byte₁ v₁ v₂]
  | [v₁, v₂, v₃, v₄] => if v₄ &&& 0x0f ≠ 0 then none else some [base32Byte₁ v₁ v₂, base32Byte₂ v₂ v₃ v₄]
  | [v₁, v₂, v₃, v₄, v₅] =>
    if v₅ &&& 0x01 ≠ 0 then none else some [base32Byte₁ v₁ v₂, base32Byte₂ v₂ v₃ v₄, base32Byte₃ v₄ v₅]
  | [v₁, v₂, v₃, v₄, v₅, v₆, v₇] =>
    if v₇ &&& 0x07 ≠ 0 then none
    else some [base32Byte₁ v₁ v₂, base32Byte₂ v₂ v₃ v₄, base32Byte₃ v₄ v₅, base32Byte₄ v₅ v₆ v₇]
  | [v₁, v₂, v₃, v₄, v₅, v₆, v₇, v₈] =>
    some [base32Byte₁ v₁ v₂, base32Byte₂ v₂ v₃ v₄, base32Byte₃ v₄ v₅, base32Byte₄ v₅ v₆ v₇, base32Byte₅ v₇ v₈]
  | _ => none

/-- The variables of `encoding_base32_decode_internal`; `block` are the first `block_index` entries of `block_values`. -/
structure Base32State where
  output : Bytes
  block : Bytes
  paddingStarted : Bool
  paddingCount : ℕ

/-- A turn of the loop of `encoding_base32_decode_internal`. -/
def base32DecodeStep (s : Base32State) (c : UInt8) : Option Base32State :=
  if c = pad then some { s with paddingStarted := true, paddingCount := s.paddingCount + 1 }
  else if s.paddingStarted = true then none
  else
    match base32Value c with
    | none => none
    | some v =>
      if s.block.length + 1 = 8 then
        (base32DecodeBlock (s.block ++ [v])).map fun bytes => { s with output := s.output ++ bytes, block := [] }
      else some { s with block := s.block ++ [v] }

/-- What `encoding_base32_decode_internal` does after its loop. -/
def base32DecodeEnd (s : Base32State) : Option Bytes :=
  if s.paddingStarted = true ∧ s.block.length ∉ [2, 4, 5, 7] then none
  else if s.paddingStarted = true ∧ s.block.length + s.paddingCount ≠ 8 then none
  else if s.block ≠ [] then (base32DecodeBlock s.block).map (s.output ++ ·)
  else some s.output

/-- `encoding_base32_decode` -/
def base32Decode (input : Bytes) : Option Bytes := input.foldlM base32DecodeStep ⟨[], [], false, 0⟩ >>= base32DecodeEnd

/-! ## Hexadecimal and percent encoding -/

/-- `encoding_hex_value` -/
def hexValue (c : UInt8) : Option UInt8 :=
  if 0x30 ≤ c ∧ c ≤ 0x39 then some (c - 0x30)
  else if 0x61 ≤ c ∧ c ≤ 0x66 then some (c - 0x61 + 10)
  else if 0x41 ≤ c ∧ c ≤ 0x46 then some (c - 0x41 + 10)
  else none

/-- The `digits` of `encoding_hex_encode` and `encoding_percent_encode`. -/
def hexDigits (uppercase : Bool) : Bytes := if uppercase = true then ascii "0123456789ABCDEF" else ascii "0123456789abcdef"

/-- A byte as two digits. -/
def hexByte (uppercase : Bool) (b : UInt8) : Bytes :=
  [(hexDigits uppercase).getD ((b >>> 4) &&& 0x0f).toNat 0, (hexDigits uppercase).getD (b &&& 0x0f).toNat 0]

/-- `encoding_hex_encode` -/
def hexEncode (input : Bytes) (uppercase : Bool) : Option Bytes :=
  if sizeMax / 2 < input.length then none else some (input.flatMap (hexByte uppercase))

/-- The byte of two digits. -/
def hexPair (high low : UInt8) : Option UInt8 := do
  let h ← hexValue high
  let l ← hexValue low
  some ((h <<< 4) ||| l)

/-- The loop of `encoding_hex_decode`. -/
def hexDecodePairs : Bytes → Option Bytes
  | high :: low :: rest => do
    let byte ← hexPair high low
    let more ← hexDecodePairs rest
    some (byte :: more)
  | _ => some []

/-- `encoding_hex_decode` -/
def hexDecode (input : Bytes) : Option Bytes := if input.length % 2 ≠ 0 then none else hexDecodePairs input

/-- `encoding_is_unreserved_percent_byte` -/
def isUnreservedPercentByte (b : UInt8) : Bool :=
  (0x41 ≤ b && b ≤ 0x5a) || (0x61 ≤ b && b ≤ 0x7a) || (0x30 ≤ b && b ≤ 0x39) || b == 0x2d || b == 0x5f || b == 0x2e || b == 0x7e

/-- The first loop of `encoding_percent_encode`: the size of the text, if there is one. -/
def percentSize : ℕ → Bytes → Option ℕ
  | size, [] => some size
  | size, b :: rest =>
    let width := if isUnreservedPercentByte b = true then 1 else 3
    if sizeMax - width < size then none else percentSize (size + width) rest

/-- A turn of its second loop. -/
def percentByte (b : UInt8) : Bytes := if isUnreservedPercentByte b = true then [b] else 0x25 :: hexByte true b

/-- `encoding_percent_encode` -/
def percentEncode (input : Bytes) : Option Bytes := (percentSize 0 input).map fun _ => input.flatMap percentByte

/-- `encoding_percent_decode` -/
def percentDecode : Bytes → Option Bytes
  | [] => some []
  | c :: rest =>
    if c = 0x25 then
      match rest with
      | high :: low :: rest => do
        let byte ← hexPair high low
        let more ← percentDecode rest
        some (byte :: more)
      | _ => none
    else (percentDecode rest).map (c :: ·)

end Libft.Encoding
