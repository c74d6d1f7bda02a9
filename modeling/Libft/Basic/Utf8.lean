import Libft.Lib.Bytes

/-!
# UTF-8

`ft_utf8_next`, `ft_utf8_validate` and `ft_utf8_encode` (`basic_utf8_*.cpp`) against the encoding of characters that Lean has: a
character is a scalar value, so that a text of characters is what a well-formed byte string spells.
-/

namespace Libft.Basic

open List
open String (utf8EncodeChar)

inductive Utf8Error where
  | invalidArgument | outOfRange

/-- `ft_utf8_detect_sequence`: the length, the bits of the first byte, and the least value that needs this length. -/
def detectSequence (first : ℕ) : Option (ℕ × ℕ × ℕ) :=
  if first ≤ 0x7F then some (1, first, 0)
  else if first &&& 0xE0 = 0xC0 then some (2, first &&& 0x1F, 0x80)
  else if first &&& 0xF0 = 0xE0 then some (3, first &&& 0x0F, 0x800)
  else if first &&& 0xF8 = 0xF0 then some (4, first &&& 0x07, 0x10000)
  else none

/-- The loop of `ft_utf8_next` over the trailing bytes. -/
def decodeTrailing : ℕ → ℕ → Bytes → Option ℕ
  | 0, v, _ => some v
  | _ + 1, _, [] => none
  | n + 1, v, byte :: rest =>
    if byte.toNat &&& 0xC0 = 0x80 then decodeTrailing n ((v <<< 6) ||| (byte.toNat &&& 0x3F)) rest else none

/-- `ft_utf8_next`: the code point at an index, and the index behind it. -/
def ftUtf8Next (data : Bytes) (index : ℕ) : Except Utf8Error (ℕ × ℕ) :=
  match data.drop index with
  | [] => .error .outOfRange
  | first :: rest =>
    match detectSequence first.toNat with
    | none => .error .invalidArgument
    | some (length, initial, minimum) =>
      if data.length < index + length then .error .outOfRange
      else match decodeTrailing (length - 1) initial rest with
        | none => .error .invalidArgument
        | some v =>
          if v < minimum ∨ 0x10FFFF < v then .error .invalidArgument
          else if 0xD800 ≤ v ∧ v ≤ 0xDFFF then .error .invalidArgument
          else .ok (v, index + length)

/-- The bytes that `ft_utf8_encode` puts into the buffer. -/
def utf8Bytes (v : ℕ) : Bytes :=
  let trailing shift := .ofNat (0x80 ||| ((v >>> shift) &&& 0x3F))
  if v ≤ 0x7F then [.ofNat v]
  else if v ≤ 0x7FF then [.ofNat (0xC0 ||| ((v >>> 6) &&& 0x1F)), trailing 0]
  else if v ≤ 0xFFFF then [.ofNat (0xE0 ||| ((v >>> 12) &&& 0x0F)), trailing 6, trailing 0]
  else [.ofNat (0xF0 ||| ((v >>> 18) &&& 0x07)), trailing 12, trailing 6, trailing 0]

/-- `ft_utf8_encode`: what is in the buffer then, and the length without the zero behind it. -/
def ftUtf8Encode (v bufferSize : ℕ) : Except Utf8Error (Bytes × ℕ) :=
  if 0x10FFFF < v then .error .outOfRange
  else if 0xD800 ≤ v ∧ v ≤ 0xDFFF then .error .invalidArgument
  else if bufferSize ≤ (utf8Bytes v).length then .error .outOfRange
  else .ok (utf8Bytes v ++ [0], (utf8Bytes v).length)

/-! ## One character -/

theorem detectSequence_eq : ∀ n < 256, detectSequence n =
    if n < 128 then some (1, n, 0) else if n < 192 then none else if n < 224 then some (2, n - 192, 0x80)
    else if n < 240 then some (3, n - 224, 0x800) else if n < 248 then some (4, n - 240, 0x10000) else none := by
  decide +kernel

theorem decodeTrailing_cons (n v : ℕ) (byte : UInt8) (tl : Bytes) : decodeTrailing (n + 1) v (byte :: tl) =
    if 128 ≤ byte.toNat ∧ byte.toNat < 192 then decodeTrailing n (v * 64 + (byte.toNat - 128)) tl else none := by
  have ht : ∀ n < 256, (n &&& 0xC0 = 0x80 ↔ 128 ≤ n ∧ n < 192) ∧ (128 ≤ n ∧ n < 192 → n &&& 0x3F = n - 128) := by decide +kernel
  obtain ⟨hi, hl⟩ := ht _ byte.toNat_lt
  simp only [decodeTrailing, hi]
  split
  · rename_i hb
    rw [hl hb, ← Nat.shiftLeft_add_eq_or_of_lt (by omega), Nat.shiftLeft_eq]
  · rfl

/-- The low groups of six bits, each in a trailing byte. -/
def trailingBytes : ℕ → ℕ → Bytes
  | 0, _ => []
  | n + 1, v => .ofNat (v / 64 ^ n % 64 + 128) :: trailingBytes n v

theorem length_trailingBytes (n v : ℕ) : (trailingBytes n v).length = n := by
  induction n with
  | zero => rfl
  | succ n ih => rw [trailingBytes, length_cons, ih]

theorem ofNat_eq_iff {byte : UInt8} {n : ℕ} (h : n < 256) : .ofNat n = byte ↔ byte.toNat = n := by
  rw [← UInt8.toNat_inj, UInt8.toNat_ofNat_of_lt' h, eq_comm]

/-- The loop adds the groups of the trailing bytes to the bits that it begins with. -/
theorem decodeTrailing_iff {n u v : ℕ} {tl : Bytes} :
    decodeTrailing n u tl = some v ↔ v / 64 ^ n = u ∧ trailingBytes n v <+: tl := by
  induction n generalizing u tl with
  | zero => simp [decodeTrailing, trailingBytes, eq_comm]
  | succ n ih =>
    cases tl with
    | nil => simp [decodeTrailing, trailingBytes]
    | cons byte tl =>
      have hb := byte.toNat_lt
      rw [decodeTrailing_cons, trailingBytes, cons_prefix_cons, ofNat_eq_iff (by omega), Nat.pow_succ,
        ← Nat.div_div_eq_div_mul, ← and_assoc]
      split
      · rw [ih]
        exact and_congr_left' (by omega)
      · simp only [reduceCtorEq, false_iff, not_and]
        omega

theorem or_and (v shift k m : ℕ) : 2 ^ k * m ||| ((v >>> shift) &&& (2 ^ k - 1)) = v / 2 ^ shift % 2 ^ k + 2 ^ k * m := by
  rw [Nat.and_two_pow_sub_one_eq_mod, ← Nat.two_pow_add_eq_or_of_lt (Nat.mod_lt _ (Nat.two_pow_pos k)), Nat.shiftRight_eq_div_pow,
    Nat.add_comm]

theorem utf8Bytes_eq (v : ℕ) : utf8Bytes v =
    if v ≤ 127 then .ofNat v :: trailingBytes 0 v
    else if v ≤ 2047 then .ofNat (v / 64 % 32 + 192) :: trailingBytes 1 v
    else if v ≤ 65535 then .ofNat (v / 4096 % 16 + 224) :: trailingBytes 2 v
    else .ofNat (v / 262144 % 8 + 240) :: trailingBytes 3 v := by
  have h2 : 0xC0 ||| ((v >>> 6) &&& 0x1F) = v / 64 % 32 + 192 := or_and v 6 5 6
  have h3 : 0xE0 ||| ((v >>> 12) &&& 0x0F) = v / 4096 % 16 + 224 := or_and v 12 4 14
  have h4 : 0xF0 ||| ((v >>> 18) &&& 0x07) = v / 262144 % 8 + 240 := or_and v 18 3 30
  have ht (shift : ℕ) : 0x80 ||| ((v >>> shift) &&& 0x3F) = v / 2 ^ shift % 64 + 128 := or_and v shift 6 2
  simp only [utf8Bytes, h2, h3, h4, ht, trailingBytes, Nat.reducePow]

/-- The first byte tells how many bytes follow; the value is not too small for as many. -/
theorem utf8Bytes_lead {v : ℕ} (hv : v.isValidChar) : ∃ first n minimum,
    utf8Bytes v = first :: trailingBytes n v ∧ detectSequence first.toNat = some (n + 1, v / 64 ^ n, minimum) ∧ minimum ≤ v := by
  have hb {n : ℕ} (h : n < 256) : (UInt8.ofNat n).toNat = n := UInt8.toNat_ofNat_of_lt' h
  unfold Nat.isValidChar at hv
  rw [utf8Bytes_eq]
  split_ifs
  · refine ⟨_, 0, 0, rfl, ?_, Nat.zero_le _⟩
    rw [hb (by omega), detectSequence_eq _ (by omega), if_pos (by omega), Nat.pow_zero, Nat.div_one]
  · refine ⟨_, 1, 0x80, rfl, ?_, by omega⟩
    rw [hb (by omega), detectSequence_eq _ (by omega), if_neg (by omega), if_neg (by omega), if_pos (by omega), Nat.add_sub_cancel]
    congr 3
    omega
  · refine ⟨_, 2, 0x800, rfl, ?_, by omega⟩
    rw [hb (by omega), detectSequence_eq _ (by omega), if_neg (by omega), if_neg (by omega), if_neg (by omega), if_pos (by omega),
      Nat.add_sub_cancel]
    congr 3
    omega
  · refine ⟨_, 3, 0x10000, rfl, ?_, by omega⟩
    rw [hb (by omega), detectSequence_eq _ (by omega), if_neg (by omega), if_neg (by omega), if_neg (by omega), if_neg (by omega),
      if_pos (by omega), Nat.add_sub_cancel]
    congr 3
    omega

theorem utf8Bytes_of_detect {first : UInt8} {n v minimum : ℕ} (hd : detectSequence first.toNat = some (n + 1, v / 64 ^ n, minimum))
    (hm : minimum ≤ v) : utf8Bytes v = first :: trailingBytes n v := by
  have hf := first.toNat_lt
  rw [detectSequence_eq _ hf] at hd
  rw [utf8Bytes_eq]
  split_ifs at hd with h1 h2 h3 h4 h5 <;> simp only [Option.some.injEq, Prod.mk.injEq] at hd <;> obtain ⟨hn, hi, rfl⟩ := hd <;>
    obtain rfl := Nat.succ.inj hn
  · rw [if_pos (by omega)]
    exact congrArg (· :: _) ((ofNat_eq_iff (by omega)).mpr (by omega))
  · rw [if_neg (by omega), if_pos (by omega)]
    exact congrArg (· :: _) ((ofNat_eq_iff (by omega)).mpr (by omega))
  · rw [if_neg (by omega), if_neg (by omega), if_pos (by omega)]
    exact congrArg (· :: _) ((ofNat_eq_iff (by omega)).mpr (by omega))
  · rw [if_neg (by omega), if_neg (by omega), if_neg (by omega)]
    exact congrArg (· :: _) ((ofNat_eq_iff (by omega)).mpr (by omega))

/-- The bytes of a character are read, and the index is then behind them. -/
theorem ftUtf8Next_iff {data : Bytes} {i v j : ℕ} :
    ftUtf8Next data i = .ok (v, j) ↔ v.isValidChar ∧ utf8Bytes v <+: data.drop i ∧ j = i + (utf8Bytes v).length := by
  have hl := length_drop (i := i) (l := data)
  unfold ftUtf8Next
  constructor
  · intro h
    split at h
    · cases h
    rename_i first tl hd
    split at h
    · cases h
    rename_i length initial minimum hs
    obtain ⟨n, rfl⟩ : ∃ n, length = n + 1 := by
      unfold detectSequence at hs
      split_ifs at hs <;> cases hs <;> exact ⟨_, rfl⟩
    split at h
    · cases h
    split at h
    · cases h
    rename_i w ht
    split_ifs at h with h1 h2
    cases h
    obtain ⟨rfl, hp⟩ := decodeTrailing_iff.mp ht
    rw [hd, utf8Bytes_of_detect hs (by omega), cons_prefix_cons, length_cons, length_trailingBytes]
    exact ⟨by unfold Nat.isValidChar; omega, ⟨rfl, hp⟩, rfl⟩
  · rintro ⟨hv, ⟨tl, hr⟩, rfl⟩
    obtain ⟨first, n, minimum, hb, hs, hm⟩ := utf8Bytes_lead hv
    have ht := decodeTrailing_iff.mpr ⟨rfl, prefix_append (trailingBytes n v) tl⟩
    rw [hb, cons_append] at hr
    rw [← hr, length_cons, length_append, length_trailingBytes] at hl
    unfold Nat.isValidChar at hv
    simp only [← hr, hs, hb, Nat.add_sub_cancel, ht, length_cons, length_trailingBytes]
    rw [if_neg (by omega), if_neg (by omega), if_neg (by omega)]

/-! ## A whole text -/

/-- The code points that `ft_utf8_next` gives until the end. -/
def codePoints (data : Bytes) (index : ℕ) : Except Utf8Error (List ℕ) :=
  if index < data.length then
    match _h : ftUtf8Next data index with
    | .error e => .error e
    | .ok (v, j) => (codePoints data j).map (v :: ·)
  else .ok []
termination_by data.length - index
decreasing_by
  obtain ⟨hv, -, rfl⟩ := ftUtf8Next_iff.mp _h
  obtain ⟨_, _, _, hb, -⟩ := utf8Bytes_lead hv
  rw [hb, length_cons]
  omega

/-- `ft_utf8_validate` -/
def ftUtf8Validate (data : Bytes) : Except Utf8Error Unit := (codePoints data 0).map fun _ => ()

theorem codePoints_iff {data : Bytes} {i : ℕ} {vs : List ℕ} :
    codePoints data i = .ok vs ↔ (∀ v ∈ vs, v.isValidChar) ∧ data.drop i = vs.flatMap utf8Bytes := by
  constructor
  · intro h
    fun_induction codePoints data i generalizing vs with
    | case1 i _ e hn => cases h
    | case2 i _ v j hn ih =>
      obtain ⟨hv, ⟨tl, hr⟩, rfl⟩ := ftUtf8Next_iff.mp hn
      cases hc : codePoints data (i + (utf8Bytes v).length) with
      | error e =>
        rw [hc] at h
        cases h
      | ok tail =>
        rw [hc] at h
        cases h
        obtain ⟨ht, hd⟩ := ih hc
        refine ⟨forall_mem_cons.mpr ⟨hv, ht⟩, ?_⟩
        rw [← drop_drop, ← hr, drop_left] at hd
        rw [flatMap_cons, ← hd, hr]
    | case3 i hi =>
      cases h
      exact ⟨nofun, drop_eq_nil_of_le (not_lt.mp hi)⟩
  · rintro ⟨hs, hd⟩
    induction vs generalizing i with
    | nil =>
      rw [codePoints, if_neg (not_lt.mpr (drop_eq_nil_iff.mp hd))]
    | cons v vs ih =>
      rw [flatMap_cons] at hd
      obtain ⟨hv, hs⟩ := forall_mem_cons.mp hs
      have hn := ftUtf8Next_iff.mpr ⟨hv, ⟨_, hd.symm⟩, rfl⟩
      have hi : i < data.length := by
        obtain ⟨first, n, _, hb, -⟩ := utf8Bytes_lead hv
        by_contra hi
        rw [drop_eq_nil_of_le (not_lt.mp hi), hb] at hd
        cases hd
      have ht := ih (i := i + (utf8Bytes v).length) hs (by rw [← drop_drop, hd, drop_left])
      rw [codePoints, if_pos hi]
      split
      · rename_i he
        cases hn.symm.trans he
      · rename_i he
        cases hn.symm.trans he
        rw [ht]
        rfl

theorem utf8Bytes_toNat (c : Char) : utf8Bytes c.toNat = utf8EncodeChar c := by
  rw [utf8Bytes_eq]
  simp only [trailingBytes, utf8EncodeChar, Nat.reducePow, Nat.div_one]
  rfl

theorem ftUtf8Encode_eq {v size : ℕ} (hv : v.isValidChar) (hs : 4 < size) :
    ftUtf8Encode v size = .ok (utf8Bytes v ++ [0], (utf8Bytes v).length) := by
  have hl : (utf8Bytes v).length ≤ 4 := by
    rw [utf8Bytes_eq]
    split_ifs <;> simp [length_trailingBytes]
  unfold Nat.isValidChar at hv
  rw [ftUtf8Encode, if_neg (by omega), if_neg (by omega), if_neg (by omega)]

theorem mapM_encode {vs : List ℕ} {size : ℕ} (hv : ∀ v ∈ vs, v.isValidChar) (hs : 4 < size) :
    vs.mapM (ftUtf8Encode · size) = .ok (vs.map fun v => (utf8Bytes v ++ [0], (utf8Bytes v).length)) := by
  induction vs with
  | nil => rfl
  | cons v vs ih =>
    obtain ⟨hv, hvs⟩ := forall_mem_cons.mp hv
    rw [mapM_cons, ftUtf8Encode_eq hv hs, ih hvs]
    rfl

/-- `ft_utf8_validate` accepts what is the encoding of characters. These are the only ones that have it, `ft_utf8_next` gives one after
the other, and `ft_utf8_encode` gives the bytes back in a buffer with room for them and a zero. -/
theorem ftUtf8_wellFormed (data : Bytes) :
    (ftUtf8Validate data = .ok () ↔ ∃ text : List Char, text.flatMap utf8EncodeChar = data) ∧
      ∀ text : List Char, text.flatMap utf8EncodeChar = data →
        (∀ text' : List Char, text'.flatMap utf8EncodeChar = data → text' = text) ∧
        codePoints data 0 = .ok (text.map Char.toNat) ∧
        ∀ size > 4, ∃ parts, (text.map Char.toNat).mapM (ftUtf8Encode · size) = .ok parts ∧
          parts.flatMap (fun part => part.1.take part.2) = data := by
  have hm (text : List Char) : (text.map Char.toNat).flatMap utf8Bytes = text.flatMap utf8EncodeChar := by
    rw [flatMap_map]
    exact congrArg (flatMap · text) (funext utf8Bytes_toNat)
  have hsc (text : List Char) : ∀ v ∈ text.map Char.toNat, v.isValidChar := by
    intro v hv
    obtain ⟨c, -, rfl⟩ := mem_map.mp hv
    exact c.valid
  have hok {text : List Char} (h : text.flatMap utf8EncodeChar = data) : codePoints data 0 = .ok (text.map Char.toNat) :=
    codePoints_iff.mpr ⟨hsc text, h.symm.trans (hm text).symm⟩
  refine ⟨⟨fun h => ?_, fun ⟨text, h⟩ => by rw [ftUtf8Validate, hok h]; rfl⟩, fun text h => ⟨fun text' h' => ?_, hok h, fun size hs =>
    ⟨_, mapM_encode (hsc text) hs, ?_⟩⟩⟩
  · cases hc : codePoints data 0 with
    | error e =>
      rw [ftUtf8Validate, hc] at h
      cases h
    | ok vs =>
      obtain ⟨hs, hd⟩ := codePoints_iff.mp hc
      have ht : (vs.pmap Char.ofNatAux hs).map Char.toNat = vs := by
        rw [map_pmap]
        exact pmap_eq_self.mpr fun _ _ => rfl
      exact ⟨_, (hm _).symm.trans (ht ▸ hd.symm)⟩
  · exact map_injective_iff.mpr (fun a b hab => Char.toNat_inj.mp hab) (Except.ok.inj ((hok h').symm.trans (hok h)))
  · rw [flatMap_map]
    simp only [take_left]
    exact (hm text).trans h

end Libft.Basic
