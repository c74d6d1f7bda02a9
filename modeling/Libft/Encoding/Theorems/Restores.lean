import Libft.Encoding.Codecs
import Mathlib.Data.Fintype.Basic
import Mathlib.Tactic.IntervalCases

/-!
# Decoding what was encoded

Each decoder undoes its encoder (`decode_encode`). For base32 there is more: an accepted text is the text of the bytes it stands for, in
small letters or without its padding perhaps, since the decoder wants the bits left over in the last group to be zero.
-/

namespace Libft.Encoding

open List Option Nat
open List (cons take replicate map)
open UInt8 (eq_of_toBitVec_eq ofNat ofNat_toNat toNat_and)

/-! ## Bits -/

/-- Six bits are below 64. -/
theorem toNat_lt_of_and {v : UInt8} (h : v &&& 0x3f = v) : v.toNat < 64 := by
  have hle : v.toNat &&& 63 ≤ 63 := Nat.and_le_right
  have heq : (v &&& 0x3f).toNat = v.toNat := congrArg UInt8.toNat h
  rw [toNat_and] at heq
  exact Nat.lt_succ_of_le (heq ▸ hle)

/-- What the encoder looks up are six bits. -/
theorem sixBits (a b c : UInt8) :
    (a >>> 2) &&& (0x3f : UInt8) = a >>> 2 ∧
    (((a &&& 0x03) <<< 4) ||| (b >>> 4)) &&& (0x3f : UInt8) = ((a &&& 0x03) <<< 4) ||| (b >>> 4) ∧
    (((b &&& 0x0f) <<< 2) ||| (c >>> 6)) &&& (0x3f : UInt8) = ((b &&& 0x0f) <<< 2) ||| (c >>> 6) ∧
    (c &&& 0x3f) &&& (0x3f : UInt8) = c &&& 0x3f := by
  -- bit by bit
  refine ⟨?_, ?_, ?_, ?_⟩ <;> apply eq_of_toBitVec_eq <;> ext i hi <;> interval_cases i <;> simp

/-- The bytes that the decoder puts together from them are the bytes that were encoded. -/
theorem bytes_of_sixBits (a b c : UInt8) :
    ((a >>> 2) <<< 2) ||| ((((a &&& 0x03) <<< 4) ||| (b >>> 4)) >>> 4) = a ∧
    (((((a &&& 0x03) <<< 4) ||| (b >>> 4)) &&& 0x0f) <<< 4) ||| ((((b &&& 0x0f) <<< 2) ||| (c >>> 6)) >>> 2) = b ∧
    (((((b &&& 0x0f) <<< 2) ||| (c >>> 6)) &&& 0x03) <<< 6) ||| (c &&& 0x3f) = c := by
  refine ⟨?_, ?_, ?_⟩ <;> apply eq_of_toBitVec_eq <;> ext i hi <;> interval_cases i <;> simp

/-- The bytes of the triple, from four values of six bits. -/
theorem triple_bytes (a b c d : UInt8) :
    let triple : UInt32 := ((a &&& 0x3f).toUInt32 <<< 18) ||| ((b &&& 0x3f).toUInt32 <<< 12) ||| ((c &&& 0x3f).toUInt32 <<< 6) |||
      (d &&& 0x3f).toUInt32
    ((triple >>> 16) &&& 0xff).toUInt8 = ((a &&& 0x3f) <<< 2) ||| ((b &&& 0x3f) >>> 4) ∧
    ((triple >>> 8) &&& 0xff).toUInt8 = (((b &&& 0x3f) &&& 0x0f) <<< 4) ||| ((c &&& 0x3f) >>> 2) ∧
    (triple &&& 0xff).toUInt8 = (((c &&& 0x3f) &&& 0x03) <<< 6) ||| (d &&& 0x3f) := by
  intro triple
  refine ⟨?_, ?_, ?_⟩ <;> apply eq_of_toBitVec_eq <;> ext i hi <;> interval_cases i <;> simp [triple]

/-- The values of five bits that the characters of a base32 group stand for. -/
def base32Values (a b c d e : UInt8) : Bytes :=
  [a >>> 3, ((a &&& 0x07) <<< 2) ||| (b >>> 6), (b >>> 1) &&& 0x1f, ((b &&& 0x01) <<< 4) ||| (c >>> 4),
    ((c &&& 0x0f) <<< 1) ||| (d >>> 7), (d >>> 2) &&& 0x1f, ((d &&& 0x03) <<< 3) ||| (e >>> 5), e &&& 0x1f]

/-- A whole base32 group is decoded to its bytes. -/
theorem base32DecodeBlock_values (a b c d e : UInt8) :
    base32DecodeBlock ((base32Values a b c d e).map (· &&& 0x1f)) = some [a, b, c, d, e] := by
  simp only [base32Values, map_cons, map_nil, base32DecodeBlock, Option.some.injEq, cons.injEq, and_true]
  refine ⟨?_, ?_, ?_, ?_, ?_⟩ <;> apply eq_of_toBitVec_eq <;> ext i hi <;> interval_cases i <;>
    simp [base32Byte₁, base32Byte₂, base32Byte₃, base32Byte₄, base32Byte₅]

/-- In a short group the last value has no bits of a byte that is not there. -/
theorem base32_rest_zero (a : UInt8) :
    ((((a &&& 0x07) <<< 2) ||| ((0 : UInt8) >>> 6)) &&& 0x1f) &&& 0x03 = 0 ∧
    ((((a &&& 0x01) <<< 4) ||| ((0 : UInt8) >>> 4)) &&& 0x1f) &&& 0x0f = 0 ∧
    ((((a &&& 0x0f) <<< 1) ||| ((0 : UInt8) >>> 7)) &&& 0x1f) &&& 0x01 = 0 ∧
    ((((a &&& 0x03) <<< 3) ||| ((0 : UInt8) >>> 5)) &&& 0x1f) &&& 0x07 = 0 := by
  refine ⟨?_, ?_, ?_, ?_⟩ <;> apply eq_of_toBitVec_eq <;> ext i hi <;> interval_cases i <;> simp

/-- A short group is decoded to the bytes that are there: they are those of the whole group with zeros for the others. -/
theorem base32DecodeBlock_short (a b c d : UInt8) :
    base32DecodeBlock (((base32Values a 0 0 0 0).take 2).map (· &&& 0x1f)) = some [a] ∧
    base32DecodeBlock (((base32Values a b 0 0 0).take 4).map (· &&& 0x1f)) = some [a, b] ∧
    base32DecodeBlock (((base32Values a b c 0 0).take 5).map (· &&& 0x1f)) = some [a, b, c] ∧
    base32DecodeBlock (((base32Values a b c d 0).take 7).map (· &&& 0x1f)) = some [a, b, c, d] := by
  have h1 := congrArg (Option.map (take 1)) (base32DecodeBlock_values a 0 0 0 0)
  have h2 := congrArg (Option.map (take 2)) (base32DecodeBlock_values a b 0 0 0)
  have h3 := congrArg (Option.map (take 3)) (base32DecodeBlock_values a b c 0 0)
  have h4 := congrArg (Option.map (take 4)) (base32DecodeBlock_values a b c d 0)
  exact ⟨(if_neg (not_not_intro (base32_rest_zero a).1)).trans h1, (if_neg (not_not_intro (base32_rest_zero b).2.1)).trans h2,
    (if_neg (not_not_intro (base32_rest_zero c).2.2.1)).trans h3, (if_neg (not_not_intro (base32_rest_zero d).2.2.2)).trans h4⟩

/-- The values of five bits that a group of bytes gives, when the bytes were put together from such values. -/
theorem base32Values_bytes (a b c d e f g h : UInt8) :
    let m := fun v : UInt8 => v &&& 0x1f
    base32Values (base32Byte₁ (m a) (m b)) (base32Byte₂ (m b) (m c) (m d)) (base32Byte₃ (m d) (m e)) (base32Byte₄ (m e) (m f) (m g))
      (base32Byte₅ (m g) (m h)) = [m a, m b, m c, m d, m e, m f, m g, m h] := by
  simp only [base32Values, cons.injEq, and_true]
  refine ⟨?_, ?_, ?_, ?_, ?_, ?_, ?_, ?_⟩ <;> apply eq_of_toBitVec_eq <;> ext i hi <;> interval_cases i <;>
    simp [base32Byte₁, base32Byte₂, base32Byte₃, base32Byte₄, base32Byte₅]

/-- A byte from its two halves. -/
theorem hex_halves (b : UInt8) : (((b >>> 4) &&& 0x0f) <<< 4) ||| (b &&& 0x0f) = b := by
  apply eq_of_toBitVec_eq
  ext i hi
  interval_cases i <;> simp

/-! ## Base64 and base64url -/

/-- A character that the encoder writes for six bits. -/
structure Base64Char (url : Bool) (c v : UInt8) : Prop where
  value : base64Value c = some v
  ne_pad : c ≠ pad
  safe : url = true → (c == 0x2b || c == 0x2f) = false
  small : v &&& 0x3f = v

variable {v : UInt8}

theorem base64Char_of_and (url : Bool) (h : v &&& 0x3f = v) : Base64Char url (base64Character v url) v := by
  have ht : ∀ (url : Bool) (n : Fin 64),
      base64Value (base64Character (ofNat n) url) = some (ofNat n) ∧ base64Character (ofNat n) url ≠ pad ∧
      (url = true → (base64Character (ofNat n) url == 0x2b || base64Character (ofNat n) url == 0x2f) = false) := by
    decide +kernel
  have hv := ht url ⟨v.toNat, toNat_lt_of_and h⟩
  simp only [ofNat_toNat] at hv
  exact ⟨hv.1, hv.2.1, hv.2.2, h⟩

variable {url : Bool} {w x y z : UInt8} {v₁ v₂ v₃ v₄ : UInt8}

/-- A character of the encoder, or padding in a place where it has no bits. -/
theorem pad_slot (url : Bool) (c v : UInt8) (h : Base64Char url c v ∨ c = pad ∧ v = 0) :
    (∀ k : UInt8 → Option Bytes, (if c ≠ pad then (base64Value c).bind k else some 0 >>= k) = k v) ∧
      (url = true → (c == 0x2b || c == 0x2f) = false) ∧ v &&& 0x3f = v := by
  rcases h with h | ⟨rfl, rfl⟩
  · exact ⟨fun k => by rw [if_pos h.ne_pad, h.value, bind_some], h.safe, h.small⟩
  · exact ⟨fun _ => rfl, fun _ => rfl, rfl⟩

/-- A chunk gives three bytes, but for those that padding stands for. -/
theorem base64DecodeChunk_eq (hw : Base64Char url w v₁) (hx : Base64Char url x v₂) (hy : Base64Char url y v₃ ∨ y = pad ∧ v₃ = 0)
    (hz : Base64Char url z v₄ ∨ z = pad ∧ v₄ = 0) :
    base64DecodeChunk url w x y z = some ([(v₁ <<< 2) ||| (v₂ >>> 4)] ++
      ((if y ≠ pad then [((v₂ &&& 0x0f) <<< 4) ||| (v₃ >>> 2)] else []) ++ (if z ≠ pad then [((v₃ &&& 0x03) <<< 6) ||| v₄] else []))) := by
  obtain ⟨hyv, hf, hys⟩ := pad_slot _ _ _ hy
  obtain ⟨hzv, hzsf, hzs⟩ := pad_slot _ _ _ hz
  have hbs := triple_bytes v₁ v₂ v₃ v₄
  rw [hw.small, hx.small, hys, hzs] at hbs
  obtain ⟨h1, h2, h3⟩ := hbs
  have hs : ¬(url = true ∧ ([w, x, y, z].any fun c => c == 0x2b || c == 0x2f) = true) := by
    rintro ⟨hu, ha⟩
    simp [hw.safe hu, hx.safe hu, hf hu, hzsf hu] at ha
  rw [base64DecodeChunk, hw.value, hx.value]
  refine (hyv _).trans ((hzv _).trans ?_)
  simp only [if_neg hs, h1, h2, h3]

/-- What the first loop of the decoder wants of a text. -/
structure Scans (text : Bytes) : Prop where
  values : ∀ c ∈ text, c = pad ∨ (base64Value c).isSome = true
  padding : text.count pad ≤ 2
  length : text.length % 4 ≠ 1

variable {text : Bytes}

theorem Scans.decode (h : Scans text) (url : Bool) : base64DecodeInternal text url = base64DecodeChunks url text := by
  have hv : ¬(text.any fun c => c != pad && (base64Value c).isNone) = true := by
    simp only [List.any_eq_true, Bool.and_eq_true, bne_iff_ne, ne_eq, isNone_iff_eq_none, not_exists, not_and]
    intro c hc hne hno
    rcases h.values c hc with hp | hsm
    · exact hne hp
    · rw [hno] at hsm
      cases hsm
  have hs : ¬(text.length % 4 = 1 ∨ 2 < text.count pad) := by
    rintro (hl | hcnt)
    · exact h.length hl
    · exact absurd h.padding (not_le.mpr hcnt)
  rw [base64DecodeInternal, if_neg hv, if_neg hs]

/-- Characters of the encoder in front of a text, or of the padding of the last group. -/
theorem scans_append (text : Bytes) {chars : Bytes} (hch : ∀ c ∈ chars, ∃ v, Base64Char url c v)
    (hvl : ∀ c ∈ text, c = pad ∨ (base64Value c).isSome = true) (hp : text.count pad ≤ 2)
    (hl : (chars.length + text.length) % 4 ≠ 1) : Scans (chars ++ text) where
  values c hc := by
    rcases mem_append.mp hc with hc | hc
    · obtain ⟨v, hv⟩ := hch c hc
      exact .inr (by rw [hv.value]; rfl)
    · exact hvl c hc
  padding := by
    have hno : pad ∉ chars := fun hc => (hch pad hc).elim fun _ hv => hv.ne_pad rfl
    rwa [count_append, count_eq_zero.mpr hno, zero_add]
  length := by rwa [length_append]

variable {bytes : Bytes} {tl data blk : Bytes} {c : UInt8}

theorem base64DecodeChunks_cons {more : Bytes} (h : base64DecodeChunk url w x y z = some bytes)
    (hr : base64DecodeChunks url tl = some more) : base64DecodeChunks url (w :: x :: y :: z :: tl) = some (bytes ++ more) := by
  rw [base64DecodeChunks, h, hr]
  rfl

/-- The text of an encoder, read chunk by chunk. -/
theorem base64_groups (url padded : Bool) (data : Bytes) :
    Scans (base64EncodeGroups url padded data) ∧
    base64DecodeChunks url (base64EncodeGroups url padded data) = some data := by
  have hcn : ∀ {c : UInt8} {chars : Bytes}, (∃ v, Base64Char url c v) → (∀ c ∈ chars, ∃ v, Base64Char url c v) →
      ∀ d ∈ c :: chars, ∃ v, Base64Char url d v := fun h hs => forall_mem_cons.mpr ⟨h, hs⟩
  fun_induction base64EncodeGroups url padded data with
  | case1 => exact ⟨⟨fun c hc => absurd hc not_mem_nil, zero_le _, by decide⟩, rfl⟩
  | case2 a =>
    obtain ⟨h1, h2, -, -⟩ := sixBits a 0 0
    have hw := base64Char_of_and url h1
    have hx := base64Char_of_and url h2
    have hch := base64DecodeChunk_eq hw hx (.inr ⟨rfl, rfl⟩) (.inr ⟨rfl, rfl⟩)
    rw [(bytes_of_sixBits a 0 0).1] at hch
    have hr := hcn ⟨_, hw⟩ (hcn ⟨_, hx⟩ (forall_mem_nil _))
    cases padded with
    | false => exact ⟨scans_append [] hr (by simp) (by simp) (by simp), hch⟩
    | true => exact ⟨scans_append [pad, pad] hr (by simp) (by simp) (by simp), base64DecodeChunks_cons hch rfl⟩
  | case3 a b =>
    obtain ⟨h1, h2, h3, -⟩ := sixBits a b 0
    have hw := base64Char_of_and url h1
    have hx := base64Char_of_and url h2
    have hy := base64Char_of_and url h3
    obtain ⟨hb1, hb2, -⟩ := bytes_of_sixBits a b 0
    have hch := base64DecodeChunk_eq hw hx (.inl hy) (.inr ⟨rfl, rfl⟩)
    rw [hb1, hb2, if_pos hy.ne_pad] at hch
    have hr := hcn ⟨_, hw⟩ (hcn ⟨_, hx⟩ (hcn ⟨_, hy⟩ (forall_mem_nil _)))
    cases padded with
    | false => exact ⟨(scans_append [] hr (by simp) (by simp) (by simp) :), hch⟩
    | true => exact ⟨(scans_append [pad] hr (by simp) (by simp) (by simp) :), base64DecodeChunks_cons hch rfl⟩
  | case4 a b c tl ih =>
    obtain ⟨h1, h2, h3, h4⟩ := sixBits a b c
    have hw := base64Char_of_and url h1
    have hx := base64Char_of_and url h2
    have hy := base64Char_of_and url h3
    have hz := base64Char_of_and url h4
    obtain ⟨hb1, hb2, hb3⟩ := bytes_of_sixBits a b c
    have hch := base64DecodeChunk_eq hw hx (.inl hy) (.inl hz)
    rw [hb1, hb2, hb3, if_pos hy.ne_pad, if_pos hz.ne_pad] at hch
    have hr := hcn ⟨_, hw⟩ (hcn ⟨_, hx⟩ (hcn ⟨_, hy⟩ (hcn ⟨_, hz⟩ (forall_mem_nil _))))
    have hl := ih.1.length
    exact ⟨(scans_append _ hr ih.1.values ih.1.padding (by simp; omega) :), base64DecodeChunks_cons hch ih.2⟩

theorem base64_restores {padded : Bool} (h : base64EncodeInternal data url padded = some text) :
    base64DecodeInternal text url = some data := by
  obtain ⟨-, ⟨⟩⟩ := ite_none_left_eq_some.mp h
  obtain ⟨hs, hc⟩ := base64_groups url padded data
  rw [hs.decode, hc]

/-! ## Base32 -/

/-- What a character that the encoder writes is. -/
theorem base32Character_spec (v : UInt8) : base32Value (base32Character v) = some (v &&& 0x1f) ∧ base32Character v ≠ pad := by
  have ht : ∀ n : Fin 32, base32Value (base32Table.getD n 0) = some (ofNat n) ∧ base32Table.getD n 0 ≠ pad := by
    decide +kernel
  have hlt : (v &&& 0x1f).toNat < 32 := by
    rw [toNat_and]
    exact lt_succ_of_le and_le_right
  have hv := ht ⟨(v &&& 0x1f).toNat, hlt⟩
  simp only [ofNat_toNat] at hv
  exact hv

/-- The loop over characters of the encoder, as long as they do not fill the block. -/
theorem base32_loop (out : Bytes) {vs : Bytes} (h : blk.length + vs.length < 8) :
    (vs.map base32Character).foldlM base32DecodeStep ⟨out, blk, false, 0⟩ =
      some ⟨out, blk ++ vs.map (· &&& 0x1f), false, 0⟩ := by
  induction vs generalizing blk with
  | nil => simp
  | cons v vs ih =>
    obtain ⟨hv, hp⟩ := base32Character_spec v
    simp only [length_cons] at h
    have hs : base32DecodeStep ⟨out, blk, false, 0⟩ (base32Character v) = some ⟨out, blk ++ [v &&& 0x1f], false, 0⟩ := by
      simp only [base32DecodeStep, hp, hv, if_false, Bool.false_eq_true]
      rw [if_neg (by omega)]
    rw [map_cons, foldlM_cons, hs, bind_eq_bind, bind_some, ih (by simp; omega)]
    simp

/-- The loop over the characters of a whole block. -/
theorem base32_loop_block (out vs : Bytes) (h : vs.length = 8) (hbs : base32DecodeBlock (vs.map (· &&& 0x1f)) = some bytes) :
    (vs.map base32Character).foldlM base32DecodeStep ⟨out, [], false, 0⟩ = some ⟨out ++ bytes, [], false, 0⟩ := by
  obtain ⟨front, v, rfl⟩ := (eq_nil_or_concat' vs).resolve_left (by rintro rfl; cases h)
  have hf : front.length = 7 := by simpa using h
  obtain ⟨hv, hp⟩ := base32Character_spec v
  rw [map_append, foldlM_append, base32_loop out (by simp [hf]), bind_eq_bind, bind_some, map_cons, map_nil, foldlM_cons]
  rw [map_append, map_cons, map_nil] at hbs
  simp [base32DecodeStep, hp, hv, hf, hbs]

/-- The loop over padding. -/
theorem base32_loop_padding (out blk : Bytes) (n k : ℕ) (started : Bool) :
    (replicate (n + 1) pad).foldlM base32DecodeStep ⟨out, blk, started, k⟩ = some ⟨out, blk, true, k + (n + 1)⟩ := by
  induction n generalizing k started with
  | zero => rfl
  | succ n ih =>
    rw [replicate_succ, foldlM_cons]
    show (replicate (n + 1) pad).foldlM base32DecodeStep ⟨out, blk, true, k + 1⟩ = _
    rw [ih]
    congr 2
    omega

/-- The end of a text whose last group is short. -/
theorem base32_short (out vs : Bytes) (n : ℕ) (h : vs.length ∈ [2, 4, 5, 7]) (hn : vs.length + (n + 1) = 8)
    (hbs : base32DecodeBlock (vs.map (· &&& 0x1f)) = some bytes) :
    ((vs.map base32Character ++ replicate (n + 1) pad).foldlM base32DecodeStep ⟨out, [], false, 0⟩ >>= base32DecodeEnd) =
      some (out ++ bytes) := by
  have hne : vs ≠ [] := by
    rintro rfl
    simp at h
  rw [foldlM_append, base32_loop out (by simp; omega), bind_eq_bind, bind_eq_bind, bind_some, base32_loop_padding, bind_some]
  simp only [base32DecodeEnd, nil_append, length_map, h, not_true_eq_false, and_false, if_false, zero_add, hn, ne_eq,
    map_eq_nil_iff, hne, not_false_eq_true, if_true, hbs, map_some]

theorem base32_groups (data out : Bytes) :
    ((base32EncodeGroups data).foldlM base32DecodeStep ⟨out, [], false, 0⟩ >>= base32DecodeEnd) = some (out ++ data) := by
  fun_induction base32EncodeGroups data generalizing out with
  | case1 => simp [base32DecodeEnd]
  | case2 a =>
    exact base32_short out ((base32Values a 0 0 0 0).take 2) 5 (by simp [base32Values]) rfl (base32DecodeBlock_short a 0 0 0).1
  | case3 a b =>
    exact base32_short out ((base32Values a b 0 0 0).take 4) 3 (by simp [base32Values]) rfl (base32DecodeBlock_short a b 0 0).2.1
  | case4 a b c =>
    exact base32_short out ((base32Values a b c 0 0).take 5) 2 (by simp [base32Values]) rfl (base32DecodeBlock_short a b c 0).2.2.1
  | case5 a b c d =>
    exact base32_short out ((base32Values a b c d 0).take 7) 0 (by simp [base32Values]) rfl (base32DecodeBlock_short a b c d).2.2.2
  | case6 a b c d e tl ih =>
    have hg : (base32EncodeGroup a (some b) (some c) (some d) (some e)).foldlM base32DecodeStep ⟨out, [], false, 0⟩ =
        some ⟨out ++ [a, b, c, d, e], [], false, 0⟩ :=
      base32_loop_block out (base32Values a b c d e) rfl (base32DecodeBlock_values a b c d e)
    rw [foldlM_append, hg, bind_eq_bind, bind_eq_bind, bind_some, ← bind_eq_bind, ih, append_assoc]
    rfl

theorem base32_restores (h : base32Encode data = some text) : base32Decode text = some data := by
  obtain ⟨-, ⟨⟩⟩ := ite_none_left_eq_some.mp h
  exact base32_groups data []

/-! ### The texts that base32 accepts -/

/-- The capital of a letter. -/
def upper (c : UInt8) : UInt8 := if 0x61 ≤ c ∧ c ≤ 0x7a then c - 0x20 else c

/-- A text in capitals, with the padding that fills its last group. -/
def paddedForm (text : Bytes) : Bytes :=
  (text.filter (· != pad)).map upper ++ List.replicate ((8 - (text.filter (· != pad)).length % 8) % 8) pad

/-- A character that has a value is the character of that value, in small letters perhaps. -/
theorem base32Value_spec (h : base32Value c = some v) : base32Character v = upper c ∧ v &&& 0x1f = v := by
  have ht : ∀ n : Fin 256, ∀ v ∈ base32Value (ofNat n), base32Character v = upper (ofNat n) ∧ v &&& 0x1f = v := by
    decide +kernel
  have hc := ht ⟨c.toNat, c.toNat_lt⟩ v
  simp only [ofNat_toNat] at hc
  exact hc h

/-- The bytes that eight values spell have the characters of the values as their text. -/
theorem base32EncodeGroup_bytes {v5 v6 v7 v8 : UInt8} (h : ∀ v ∈ [v₁, v₂, v₃, v₄, v5, v6, v7, v8], v &&& 0x1f = v) :
    base32EncodeGroup (base32Byte₁ v₁ v₂) (some (base32Byte₂ v₂ v₃ v₄)) (some (base32Byte₃ v₄ v5)) (some (base32Byte₄ v5 v6 v7))
      (some (base32Byte₅ v7 v8)) = [v₁, v₂, v₃, v₄, v5, v6, v7, v8].map base32Character := by
  simp only [mem_cons, not_mem_nil, or_false, forall_eq_or_imp, forall_eq] at h
  obtain ⟨h1, h2, h3, h4, h5, h6, h7, h8⟩ := h
  have hv := base32Values_bytes v₁ v₂ v₃ v₄ v5 v6 v7 v8
  simp only [h1, h2, h3, h4, h5, h6, h7, h8] at hv
  exact congrArg (map base32Character) hv

/-- The bytes of a block have its characters as their text. When the block is short, the bytes that are not there would be zero, since
the bits left over are: its text is the front of the text of a whole group. -/
theorem base32EncodeGroups_block (hs : ∀ v ∈ blk, v &&& 0x1f = v) (h : base32DecodeBlock blk = some bytes) :
    base32EncodeGroups bytes = blk.map base32Character ++ replicate ((8 - blk.length % 8) % 8) pad ∧
    (blk.length = 8 → bytes.length = 5) := by
  have hz : ∀ (n : ℕ), ∀ v ∈ blk ++ replicate n 0, v &&& 0x1f = v := by
    intro n v hv
    rcases mem_append.mp hv with hv | hv
    · exact hs v hv
    · rw [eq_of_mem_replicate hv]
      rfl
  unfold base32DecodeBlock at h
  split at h
  · rename_i v₁ v₂
    obtain ⟨hr, ⟨⟩⟩ := ite_none_left_eq_some.mp h
    have hg := base32EncodeGroup_bytes (hz 6)
    rw [show base32Byte₂ v₂ 0 0 = 0 by rw [base32Byte₂, not_not.mp hr]; rfl] at hg
    exact ⟨congrArg (fun text => text.take 2 ++ replicate 6 pad) hg, nofun⟩
  · rename_i v₁ v₂ v₃ v₄
    obtain ⟨hr, ⟨⟩⟩ := ite_none_left_eq_some.mp h
    have hg := base32EncodeGroup_bytes (hz 4)
    rw [show base32Byte₃ v₄ 0 = 0 by rw [base32Byte₃, not_not.mp hr]; rfl] at hg
    exact ⟨congrArg (fun text => text.take 4 ++ replicate 4 pad) hg, nofun⟩
  · rename_i v₁ v₂ v₃ v₄ v5
    obtain ⟨hr, ⟨⟩⟩ := ite_none_left_eq_some.mp h
    have hg := base32EncodeGroup_bytes (hz 3)
    rw [show base32Byte₄ v5 0 0 = 0 by rw [base32Byte₄, not_not.mp hr]; rfl] at hg
    exact ⟨congrArg (fun text => text.take 5 ++ replicate 3 pad) hg, nofun⟩
  · rename_i v₁ v₂ v₃ v₄ v5 v6 v7
    obtain ⟨hr, ⟨⟩⟩ := ite_none_left_eq_some.mp h
    have hg := base32EncodeGroup_bytes (hz 1)
    rw [show base32Byte₅ v7 0 = 0 by rw [base32Byte₅, not_not.mp hr]; rfl] at hg
    exact ⟨congrArg (fun text => text.take 7 ++ replicate 1 pad) hg, nofun⟩
  · cases h
    refine ⟨?_, fun _ => rfl⟩
    rw [base32EncodeGroups, base32EncodeGroups, base32EncodeGroup_bytes hs]
    simp
  · cases h

theorem base32EncodeGroups_append {front : Bytes} (h : front.length % 5 = 0) (data : Bytes) :
    base32EncodeGroups (front ++ data) = base32EncodeGroups front ++ base32EncodeGroups data := by
  fun_induction base32EncodeGroups front with
  | case1 => rfl
  | case2 | case3 | case4 | case5 => cases h
  | case6 a b c d e tl ih =>
    have hr : tl.length % 5 = 0 := by
      simp only [length_cons] at h
      omega
    show base32EncodeGroup a (some b) (some c) (some d) (some e) ++ base32EncodeGroups (tl ++ data) = _
    rw [ih hr, append_assoc]

theorem length_base32EncodeGroups (data : Bytes) : (base32EncodeGroups data).length = (data.length + 4) / 5 * 8 := by
  fun_induction base32EncodeGroups data with
  | case1 => rfl
  | case2 | case3 | case4 | case5 => simp [base32EncodeGroup]
  | case6 a b c d e tl ih =>
    have hg : (base32EncodeGroup a (some b) (some c) (some d) (some e)).length = 8 := rfl
    rw [length_append, hg, ih]
    simp only [length_cons]
    omega

/-- What the decoder has after a part of the text: the characters so far are the text of the output and the values in the block. -/
structure Base32State.Reads (s : Base32State) (text : Bytes) : Prop where
  form : (text.filter (· != pad)).map upper = base32EncodeGroups s.output ++ s.block.map base32Character
  whole : s.output.length % 5 = 0
  short : s.block.length < 8
  small : ∀ v ∈ s.block, v &&& 0x1f = v

variable {s s' : Base32State}

theorem Base32State.Reads.step (h : s.Reads text) (hst : base32DecodeStep s c = some s') : s'.Reads (text ++ [c]) := by
  unfold base32DecodeStep at hst
  split at hst
  · rename_i hp
    cases hst
    refine ⟨?_, h.whole, h.short, h.small⟩
    rw [filter_append, hp]
    simpa using h.form
  · rename_i hp
    have hf : ((text ++ [c]).filter (· != pad)).map upper = (text.filter (· != pad)).map upper ++ [upper c] := by
      simp [filter_append, hp]
    split at hst
    · cases hst
    split at hst
    · cases hst
    rename_i v hv
    obtain ⟨hc, hs⟩ := base32Value_spec hv
    have hfr : ((text ++ [c]).filter (· != pad)).map upper =
        base32EncodeGroups s.output ++ (s.block ++ [v]).map base32Character := by
      rw [hf, h.form, ← hc, map_append, append_assoc]
      rfl
    have ha : ∀ u ∈ s.block ++ [v], u &&& 0x1f = u := by
      intro u hu
      rcases mem_append.mp hu with hu | hu
      · exact h.small u hu
      · rw [mem_singleton.mp hu, hs]
    have hsh := h.short
    split at hst
    · -- the block is full
      rename_i hfl
      obtain ⟨bytes, hbs, rfl⟩ := map_eq_some_iff.mp hst
      obtain ⟨ht, hn⟩ := base32EncodeGroups_block ha hbs
      have hl : (s.block ++ [v]).length = 8 := by simpa using hfl
      have hw := h.whole
      refine ⟨?_, ?_, by simp, by simp⟩
      · rw [hfr, base32EncodeGroups_append hw, ht, hl]
        simp
      · rw [length_append, hn hl]
        omega
    · cases hst
      refine ⟨hfr, h.whole, ?_, ha⟩
      simp only [length_append, length_cons, length_nil]
      omega

theorem Base32State.Reads.loop (h : s.Reads text) (hn : tl.foldlM base32DecodeStep s = some s') : s'.Reads (text ++ tl) := by
  induction tl generalizing s text with
  | nil =>
    cases hn
    simpa using h
  | cons c tl ih =>
    rw [foldlM_cons, bind_eq_bind, bind_eq_some_iff] at hn
    obtain ⟨t, hs, hr⟩ := hn
    have ha := ih (h.step hs) hr
    rwa [append_assoc] at ha

/-- The text of the bytes that an accepted text stands for. -/
theorem base32EncodeGroups_of_base32Decode (h : base32Decode text = some bytes) : base32EncodeGroups bytes = paddedForm text := by
  unfold base32Decode at h
  rw [bind_eq_bind, bind_eq_some_iff] at h
  obtain ⟨s, hn, he⟩ := h
  have hs : Base32State.Reads ⟨[], [], false, 0⟩ [] := ⟨rfl, rfl, by decide, by simp⟩
  have hr : s.Reads text := hs.loop hn
  have hl : (text.filter (· != pad)).length % 8 = s.block.length % 8 := by
    have hf := congrArg List.length hr.form
    rw [length_map, length_append, length_base32EncodeGroups, length_map] at hf
    omega
  have hp : paddedForm text =
      base32EncodeGroups s.output ++ (s.block.map base32Character ++ replicate ((8 - s.block.length % 8) % 8) pad) := by
    rw [paddedForm, hl, hr.form, append_assoc]
  unfold base32DecodeEnd at he
  split_ifs at he with hc hm hb
  · obtain ⟨more, hmr, rfl⟩ := map_eq_some_iff.mp he
    rw [base32EncodeGroups_append hr.whole, (base32EncodeGroups_block hr.small hmr).1, hp]
  · cases he
    rw [hp, not_not.mp hb]
    simp

/-! ## Hexadecimal and percent encoding -/

/-- Reading the two digits of a byte. -/
theorem hexPair_hexByte (u : Bool) (b : UInt8) : ∃ hi low, hexByte u b = [hi, low] ∧ hexPair hi low = some b := by
  have ht : ∀ (u : Bool) (n : Fin 16), hexValue ((hexDigits u).getD n 0) = some (ofNat n) := by
    decide +kernel
  have hvl : ∀ v : UInt8, hexValue ((hexDigits u).getD (v &&& 0x0f).toNat 0) = some (v &&& 0x0f) := by
    intro v
    have hlt : (v &&& 0x0f).toNat < 16 := by
      rw [toNat_and]
      exact lt_succ_of_le and_le_right
    have hv := ht u ⟨(v &&& 0x0f).toNat, hlt⟩
    rwa [ofNat_toNat] at hv
  refine ⟨_, _, rfl, ?_⟩
  rw [hexPair, hvl, hvl, bind_eq_bind, bind_some, bind_some, hex_halves]

theorem hexDecodePairs_flatMap (u : Bool) (data : Bytes) : hexDecodePairs (data.flatMap (hexByte u)) = some data := by
  induction data with
  | nil => rfl
  | cons b data ih =>
    obtain ⟨hi, low, hb, hp⟩ := hexPair_hexByte u b
    rw [flatMap_cons, hb]
    show hexDecodePairs (hi :: low :: data.flatMap (hexByte u)) = _
    rw [hexDecodePairs, hp, ih]
    rfl

theorem hex_restores {u : Bool} (h : hexEncode data u = some text) : hexDecode text = some data := by
  obtain ⟨-, ⟨⟩⟩ := ite_none_left_eq_some.mp h
  have hl : (data.flatMap (hexByte u)).length = 2 * data.length := by
    induction data with
    | nil => rfl
    | cons b data ih => simp [hexByte]; omega
  rw [hexDecode, hl, if_neg (by omega), hexDecodePairs_flatMap]

theorem percentDecode_flatMap (data : Bytes) : percentDecode (data.flatMap percentByte) = some data := by
  induction data with
  | nil => rfl
  | cons b data ih =>
    rw [flatMap_cons, percentByte]
    split
    · -- the percent sign itself is not written as it is
      rename_i hu
      have hne : b ≠ 0x25 := by
        rintro rfl
        revert hu
        decide
      show percentDecode (b :: data.flatMap percentByte) = _
      rw [percentDecode.eq_def]
      simp only [hne, if_false, ih, map_some]
    · obtain ⟨hi, low, hb, hp⟩ := hexPair_hexByte true b
      rw [hb]
      show percentDecode (0x25 :: hi :: low :: data.flatMap percentByte) = _
      rw [percentDecode.eq_def]
      simp only [if_true, hp, ih, bind_eq_bind, bind_some]

/-- The size of a text, when it is within the limit. -/
theorem percentSize_eq (size : ℕ) (data : Bytes) (h : size ≤ sizeMax) :
    percentSize size data = if size + (data.flatMap percentByte).length ≤ sizeMax then some (size + (data.flatMap percentByte).length)
      else none := by
  induction data generalizing size with
  | nil => simp [percentSize, h]
  | cons b data ih =>
    have hw : (percentByte b).length = if isUnreservedPercentByte b = true then 1 else 3 := by
      unfold percentByte
      split <;> rfl
    have hm : 3 ≤ sizeMax := by decide
    rw [percentSize, ← hw, flatMap_cons, length_append]
    have hle : (percentByte b).length ≤ 3 := by
      rw [hw]
      split <;> omega
    split_ifs with h1 h2 h2
    · omega
    · rfl
    · rw [ih _ (by omega), if_pos (by omega), add_assoc]
    · by_cases hfit : size + (percentByte b).length ≤ sizeMax
      · rw [ih _ hfit, if_neg (by omega)]
      · omega

theorem percent_restores (h : percentEncode data = some text) : percentDecode text = some data := by
  obtain ⟨size, -, rfl⟩ := map_eq_some_iff.mp h
  exact percentDecode_flatMap data

/-! ## All of them -/

/-- A decoder gives back what was encoded, and the encoder takes the byte strings that fit. -/
def Undoes (decode encode : Bytes → Option Bytes) (fits : Bytes → Prop) : Prop :=
  (∀ data, (encode data).isSome = true ↔ fits data) ∧ ∀ data text, encode data = some text → decode text = some data

theorem isSome_within (lim n : ℕ) (text : Bytes) : (if lim < n then none else some text).isSome = true ↔ n ≤ lim := by
  split
  · simp only [isSome_none, Bool.false_eq_true, false_iff]
    omega
  · simp only [isSome_some, true_iff]
    omega

/-- Every decoder gives back the bytes that were encoded, and the encoders take all bytes but those too many for their text to have a
size. A text that base32 accepts is the text of its bytes up to small letters and padding, so two texts for the same bytes have the same
padded form. -/
theorem decode_encode :
    Undoes base64Decode base64Encode (fun data => data.length ≤ sizeMax / 4 * 3) ∧
    (∀ padded, Undoes base64urlDecode (base64urlEncode · padded) (fun data => data.length ≤ sizeMax / 4 * 3)) ∧
    Undoes base32Decode base32Encode (fun data => data.length ≤ sizeMax / 8 * 5) ∧
    (∀ uppercase, Undoes hexDecode (hexEncode · uppercase) (fun data => data.length ≤ sizeMax / 2)) ∧
    Undoes percentDecode percentEncode (fun data => (data.flatMap percentByte).length ≤ sizeMax) ∧
    (∀ text bytes, base32Decode text = some bytes → (paddedForm text).length ≤ sizeMax →
      base32Encode bytes = some (paddedForm text)) ∧
    (∀ text text' bytes, base32Decode text = some bytes → base32Decode text' = some bytes → paddedForm text = paddedForm text') := by
  refine ⟨⟨fun data => isSome_within _ _ _, fun data text => base64_restores⟩,
    fun padded => ⟨fun data => isSome_within _ _ _, fun data text => base64_restores⟩,
    ⟨fun data => isSome_within _ _ _, fun data text => base32_restores⟩,
    fun uppercase => ⟨fun data => isSome_within _ _ _, fun data text => hex_restores⟩,
    ⟨fun data => ?_, fun data text => percent_restores⟩, fun text bytes h hl => ?_, fun text text' bytes h h' => ?_⟩
  · rw [percentEncode, percentSize_eq 0 data (zero_le _), zero_add]
    split
    · exact iff_of_true rfl ‹_›
    · exact iff_of_false Bool.false_ne_true ‹_›
  · rw [← base32EncodeGroups_of_base32Decode h, length_base32EncodeGroups] at hl
    rw [base32Encode, if_neg (by omega), base32EncodeGroups_of_base32Decode h]
  · rw [← base32EncodeGroups_of_base32Decode h, base32EncodeGroups_of_base32Decode h']

/-- A text in small letters and without padding. -/
theorem decode_encode_small_letters :
    base32Decode (ascii "mzxw6yq") = some (ascii "foob") ∧ base32Encode (ascii "foob") = some (ascii "MZXW6YQ=") :=
  ⟨by decide +kernel, decode_encode.2.2.2.2.2.1 (ascii "mzxw6yq") (ascii "foob") (by decide +kernel) (by decide +kernel)⟩

end Libft.Encoding
