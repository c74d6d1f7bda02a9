import Libft.Lib.Bytes

/-!
# JSON pointers

A document is a list of named groups, a group a list of items, an item a key and a value that is kept as text.
`json_document::find_item_by_pointer`: the name of a group and the key of an item, each after a slash, with `~1` for a slash and `~0` for
a tilde. With the two written so, any name and key lead to the first item with the key in the first group with the name
(`findItemByPointer_pointer`).
-/

namespace Libft.JSon

open List Option

/-- `json_item`. -/
structure JsonItem where
  key : Bytes
  value : Bytes
  deriving DecidableEq

/-- `json_group`. -/
structure JsonGroup where
  name : Bytes
  items : List JsonItem := []
  deriving DecidableEq

def slash : UInt8 := 0x2f
def tilde : UInt8 := 0x7e

/-- `json_document_unescape_pointer_token` -/
def unescapePointerToken : Bytes → Option Bytes
  | [] => some []
  | [c] => if c = tilde then none else some [c]
  | c :: d :: rest =>
    if c = tilde then
      if d = 0x30 then (unescapePointerToken rest).map (tilde :: ·)
      else if d = 0x31 then (unescapePointerToken rest).map (slash :: ·)
      else none
    else (unescapePointerToken (d :: rest)).map (c :: ·)

/-- What a turn of the loop of `find_item_by_pointer_unlocked` reads: a slash and a token that is not empty. -/
def pointerToken : Bytes → Option (Bytes × Bytes)
  | [] => none
  | c :: rest =>
    if c ≠ slash then none
    else if rest.takeWhile (· ≠ slash) = [] then none
    else (unescapePointerToken (rest.takeWhile (· ≠ slash))).map (·, rest.dropWhile (· ≠ slash))

/-- `json_document::find_item_by_pointer`: the places of the group and of the item. The loop takes one turn for the group and one for the
item. -/
def findItemByPointer (groups : List JsonGroup) (pointer : Bytes) : Option (ℕ × ℕ) := do
  let (name, rest) ← pointerToken (cString pointer)
  let i ← groups.findIdx? (·.name = name)
  if rest = [] then none
  else do
    let (key, rest) ← pointerToken rest
    let group ← groups[i]?
    let j ← group.items.findIdx? (·.key = key)
    if rest ≠ [] then none else some (i, j)

/-- A token with its tildes and slashes escaped. -/
def escapePointerToken (token : Bytes) : Bytes :=
  token.flatMap fun c => if c = tilde then [tilde, 0x30] else if c = slash then [tilde, 0x31] else [c]

/-- The pointer of a name and a key. -/
def pointer (name key : Bytes) : Bytes := slash :: escapePointerToken name ++ slash :: escapePointerToken key

variable {token rest : Bytes} {c : UInt8} {name key : Bytes}

theorem escapePointerToken_cons (c : UInt8) (token : Bytes) : escapePointerToken (c :: token) =
    (if c = tilde then [tilde, 0x30] else if c = slash then [tilde, 0x31] else [c]) ++ escapePointerToken token := flatMap_cons

theorem unescapePointerToken_cons (h : c ≠ tilde) (rest : Bytes) :
    unescapePointerToken (c :: rest) = (unescapePointerToken rest).map (c :: ·) := by
  cases rest with
  | nil => simp [unescapePointerToken, h]
  | cons d rest => rw [unescapePointerToken, if_neg h]

theorem unescapePointerToken_escape (token : Bytes) : unescapePointerToken (escapePointerToken token) = some token := by
  induction token with
  | nil => rfl
  | cons c token ih =>
    rw [escapePointerToken_cons]
    split_ifs with ht hs
    · simp [unescapePointerToken, ih, ht]
    · simp [unescapePointerToken, ih, hs]
    · rw [singleton_append, unescapePointerToken_cons ht, ih]
      rfl

theorem escapePointerToken_ne_nil (h : token ≠ []) : escapePointerToken token ≠ [] := by
  intro hn
  have hs := unescapePointerToken_escape token
  rw [hn] at hs
  exact h (some.inj hs).symm

/-- No slash is left in a token that was escaped, and no zero byte comes into it. -/
theorem mem_escapePointerToken (h : c ∈ escapePointerToken token) : c ≠ slash ∧ (c = 0 → c ∈ token) := by
  obtain ⟨b, hb, hc⟩ := mem_flatMap.mp h
  split_ifs at hc with ht hs
  · rcases mem_pair.mp hc with rfl | rfl <;> exact ⟨by decide, nofun⟩
  · rcases mem_pair.mp hc with rfl | rfl <;> exact ⟨by decide, nofun⟩
  · rw [mem_singleton.mp hc]
    exact ⟨hs, fun _ => hb⟩

/-- A token that was escaped is read up to the next slash, or to the end. -/
theorem pointerToken_escape (h : token ≠ []) (hr : ∀ c ∈ rest.head?, c = slash) :
    pointerToken (slash :: escapePointerToken token ++ rest) = some (token, rest) := by
  have hp : ∀ c ∈ escapePointerToken token, decide (c ≠ slash) = true := fun c hc => by simp [(mem_escapePointerToken hc).1]
  have ht : rest.takeWhile (· ≠ slash) = [] ∧ rest.dropWhile (· ≠ slash) = rest := by
    cases rest with
    | nil => simp
    | cons c rest => simp [hr c rfl]
  rw [cons_append, pointerToken, if_neg (by simp), takeWhile_append_of_pos hp, ht.1, append_nil, if_neg (escapePointerToken_ne_nil h),
    dropWhile_append_of_pos hp, ht.2, unescapePointerToken_escape]
  rfl

/-- The places of the first group with a name and of the first item with a key in it. -/
def firstItem (groups : List JsonGroup) (name key : Bytes) : Option (ℕ × ℕ) := do
  let i ← groups.findIdx? (·.name = name)
  let group ← groups[i]?
  let j ← group.items.findIdx? (·.key = key)
  some (i, j)

theorem firstItem_eq_some {gs : List JsonGroup} {i j : ℕ} (h : firstItem gs name key = some (i, j)) :
    ∃ g item, gs[i]? = some g ∧ g.name = name ∧ g.items[j]? = some item ∧ item.key = key := by
  simp only [firstItem, bind_eq_bind, bind_eq_some_iff, some.injEq, Prod.mk.injEq] at h
  obtain ⟨i, hi, g, hg, j, hj, rfl, rfl⟩ := h
  obtain ⟨hlt, hn, -⟩ := findIdx?_eq_some_iff_getElem.mp hi
  obtain ⟨hl', hk, -⟩ := findIdx?_eq_some_iff_getElem.mp hj
  rw [getElem?_eq_getElem hlt, some.injEq] at hg
  subst hg
  exact ⟨_, _, getElem?_eq_getElem hlt, of_decide_eq_true hn, getElem?_eq_getElem hl', of_decide_eq_true hk⟩

theorem findItemByPointer_eq (gs : List JsonGroup) (hn : name ≠ [] ∧ 0 ∉ name) (hk : key ≠ [] ∧ 0 ∉ key) :
    findItemByPointer gs (pointer name key) = firstItem gs name key := by
  have hl : (0 : UInt8) ∉ pointer name key := by
    simp only [pointer, cons_append, mem_cons, mem_append, not_or]
    exact ⟨by decide, fun h => hn.2 ((mem_escapePointerToken h).2 rfl), by decide, fun h => hk.2 ((mem_escapePointerToken h).2 rfl)⟩
  have hy : pointerToken (slash :: escapePointerToken key) = some (key, []) := by
    simpa using @pointerToken_escape key [] hk.1 nofun
  unfold findItemByPointer
  rw [cString_eq_self hl, pointer, pointerToken_escape hn.1 (by simp)]
  simp [firstItem, hy]

/-- In any document the pointer of a name and a key, both not empty and of any characters, leads to the first item with the key in the
first group with the name, and the pointer of another name or key does not lead to that item. -/
theorem findItemByPointer_pointer (groups : List JsonGroup) (name key : Bytes) (hname : name ≠ [] ∧ 0 ∉ name)
    (hkey : key ≠ [] ∧ 0 ∉ key) :
    findItemByPointer groups (pointer name key) = firstItem groups name key ∧
      ∀ name' key' place, name' ≠ [] ∧ 0 ∉ name' → key' ≠ [] ∧ 0 ∉ key' → findItemByPointer groups (pointer name key) = some place →
        findItemByPointer groups (pointer name' key') = some place → name = name' ∧ key = key' := by
  refine ⟨findItemByPointer_eq groups hname hkey, ?_⟩
  rintro name' key' ⟨i, j⟩ hn' hk' h h'
  rw [findItemByPointer_eq groups hname hkey] at h
  rw [findItemByPointer_eq groups hn' hk'] at h'
  obtain ⟨g, item, hg, rfl, hi, rfl⟩ := firstItem_eq_some h
  obtain ⟨g', item', hg', rfl, hi', rfl⟩ := firstItem_eq_some h'
  obtain rfl : g = g' := some.inj (hg.symm.trans hg')
  exact ⟨rfl, congrArg JsonItem.key (some.inj (hi.symm.trans hi'))⟩

/-- A group `~/` with an item `~1`. -/
theorem findItemByPointer_escaped :
    let groups : List JsonGroup := [⟨ascii "~/", [⟨ascii "/", []⟩, ⟨ascii "~1", []⟩]⟩]
    findItemByPointer groups (ascii "/~0~1/~01") = some (0, 1) :=
  (findItemByPointer_pointer _ (ascii "~/") (ascii "~1") (by decide) (by decide)).1.trans rfl

end Libft.JSon
