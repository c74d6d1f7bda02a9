import Libft.Lib.Bytes
import Mathlib.Data.List.Infix

/-!
# Redaction of log texts

Each rule is one scan over the text, which puts the replacement in the place of the pattern and goes on behind it. A replacement that
shares no character with the patterns stands between what is kept on its two sides, so that a pattern in the result is one in the text,
and one that the scan would have replaced (`applyRedactions_clean`). Texts are set and can grow.
-/

namespace Libft.Logger

open List

/-- `s_redaction_rule` -/
structure RedactionRule where
  pattern : Bytes
  replacement : Bytes

/-- The scan of `logger_apply_redaction_rule`, for a pattern that is not empty. -/
def scan (pattern replacement : Bytes) : Bytes → Bytes
  | [] => []
  | c :: rest =>
    if pattern.isPrefixOf (c :: rest) = true then replacement ++ scan pattern replacement (rest.drop (pattern.length - 1))
    else c :: scan pattern replacement rest
termination_by text => text.length

/-- What is put in the place of a pattern: the replacement is appended as a `const char *`. -/
def RedactionRule.inserted (rule : RedactionRule) : Bytes := cString rule.replacement

/-- `logger_apply_redaction_rule` -/
def applyRedactionRule (text : Bytes) (rule : RedactionRule) : Bytes :=
  if rule.pattern.length = 0 then text else scan rule.pattern rule.inserted text

/-- `logger_apply_redactions` -/
def applyRedactions (text : Bytes) (rules : List RedactionRule) : Bytes := rules.foldl applyRedactionRule text

/-- A text is kept, character by character, but for occurrences of a pattern, in the place of which there is something else. -/
inductive Replaced (pattern inserted : Bytes) : Bytes → Bytes → Prop
  | nil : Replaced pattern inserted [] []
  | keep (c : UInt8) {text out : Bytes} : Replaced pattern inserted text out → Replaced pattern inserted (c :: text) (c :: out)
  | replace {text out : Bytes} : Replaced pattern inserted text out → Replaced pattern inserted (pattern ++ text) (inserted ++ out)

/-- So it is for one rule after the other. -/
inductive Redacted : List RedactionRule → Bytes → Bytes → Prop
  | nil (text : Bytes) : Redacted [] text text
  | cons {rule : RedactionRule} {rules : List RedactionRule} {text mid out : Bytes} :
      Replaced rule.pattern rule.inserted text mid → Redacted rules mid out → Redacted (rule :: rules) text out

variable {pattern inserted text u : Bytes}

theorem Replaced.refl (text : Bytes) : Replaced pattern inserted text text := by
  induction text with
  | nil => exact .nil
  | cons c text ih => exact .keep c ih

/-- Behind a pattern that is not empty, the scan goes on with what follows it. -/
theorem eq_append_drop {c : UInt8} {tl : Bytes} (hne : pattern ≠ []) (h : pattern <+: c :: tl) :
    c :: tl = pattern ++ tl.drop (pattern.length - 1) := by
  obtain ⟨b, pattern, rfl⟩ := exists_cons_of_ne_nil hne
  obtain ⟨rfl, ht⟩ := cons_prefix_cons.mp h
  rw [length_cons, Nat.add_sub_cancel, cons_append, prefix_iff_eq_append.mp ht]

theorem replaced_scan (hne : pattern ≠ []) (text : Bytes) : Replaced pattern inserted text (scan pattern inserted text) := by
  fun_induction scan pattern inserted text with
  | case1 => exact .nil
  | case2 c tl hmt ih =>
    rw [eq_append_drop hne ( isPrefixOf_iff_prefix.mp hmt)]
    exact .replace ih
  | case3 c tl _ ih => exact .keep c ih

section Apart

variable (hinserted : inserted ≠ []) (hapart : ∀ b ∈ inserted, b ∉ u)

include hapart

/-- What shares no character with a text cannot begin in it. -/
theorem infix_of_infix_append (hu : u ≠ []) {out : Bytes} (h : u <:+: inserted ++ out) : u <:+: out := by
  induction inserted with
  | nil => exact h
  | cons b inserted ih =>
    rw [cons_append, infix_cons_iff] at h
    rcases h with h | h
    · obtain ⟨c, v, rfl⟩ := exists_cons_of_ne_nil hu
      rw [(cons_prefix_cons.mp h).1] at hapart
      exact absurd mem_cons_self (hapart b mem_cons_self)
    · exact ih (fun a ha => hapart a (mem_cons_of_mem b ha)) h

include hinserted

/-- What begins the result of a scan and shares no character with what is inserted begins the text. -/
theorem prefix_of_prefix_scan (h : u <+: scan pattern inserted text) : u <+: text := by
  fun_induction scan pattern inserted text generalizing u with
  | case1 => exact h
  | case2 c tl _ _ =>
    obtain ⟨b, inserted, rfl⟩ := exists_cons_of_ne_nil hinserted
    cases u with
    | nil => exact nil_prefix
    | cons a u =>
      rw [(cons_prefix_cons.mp h).1] at hapart
      exact absurd mem_cons_self (hapart b mem_cons_self)
  | case3 c tl _ ih =>
    cases u with
    | nil => exact nil_prefix
    | cons a u =>
      obtain ⟨rfl, ht⟩ := cons_prefix_cons.mp h
      exact cons_prefix_cons.mpr ⟨rfl, ih (fun b hb hu => hapart b hb (mem_cons_of_mem a hu)) ht⟩

/-- What is in the result and shares no character with what is inserted is in the text, and begins where the pattern does not. -/
theorem infix_scan (hu : u ≠ []) (h : u <:+: scan pattern inserted text) : ∃ t, t <:+ text ∧ u <+: t ∧ ¬pattern <+: t := by
  fun_induction scan pattern inserted text with
  | case1 => exact absurd (eq_nil_of_infix_nil h) hu
  | case2 c tl _ ih =>
    obtain ⟨t, ht, hb⟩ := ih (infix_of_infix_append hapart hu h)
    exact ⟨t, (ht.trans (drop_suffix _ tl)).trans (suffix_cons c tl), hb⟩
  | case3 c tl hmt ih =>
    rcases infix_cons_iff.mp h with h | h
    · have hs : u <+: scan pattern inserted (c :: tl) := by rwa [scan, if_neg hmt]
      exact ⟨c :: tl, suffix_refl _, prefix_of_prefix_scan hinserted hapart hs, fun hp => hmt ( isPrefixOf_iff_prefix.mpr hp)⟩
    · obtain ⟨t, ht, hb⟩ := ih h
      exact ⟨t, ht.trans (suffix_cons c tl), hb⟩

end Apart

/-- A rule replaces every occurrence of its pattern, and brings about none of another. -/
theorem infix_of_infix_rule {rule : RedactionRule} (hinserted : rule.inserted ≠ []) (hapart : ∀ b ∈ rule.inserted, b ∉ u) (hu : u ≠ [])
    (h : u <:+: applyRedactionRule text rule) : u <:+: text ∧ u ≠ rule.pattern := by
  unfold applyRedactionRule at h
  split at h
  · rename_i hn
    refine ⟨h, ?_⟩
    rintro rfl
    exact hu (length_eq_zero_iff.mp hn)
  · obtain ⟨t, ht, hb, hnot⟩ := infix_scan hinserted hapart hu h
    refine ⟨hb.isInfix.trans ht.isInfix, ?_⟩
    rintro rfl
    exact hnot hb

theorem infix_of_infix_redactions {rules : List RedactionRule} (hinserted : ∀ rule ∈ rules, rule.inserted ≠ [])
    (hapart : ∀ rule ∈ rules, ∀ b ∈ rule.inserted, b ∉ u) (hu : u ≠ []) (h : u <:+: applyRedactions text rules) :
    u <:+: text ∧ ∀ rule ∈ rules, u ≠ rule.pattern := by
  induction rules generalizing text with
  | nil => exact ⟨h, forall_mem_nil _⟩
  | cons rule rules ih =>
    obtain ⟨hm, ho⟩ := ih (fun r hr => hinserted r (mem_cons_of_mem rule hr)) (fun r hr => hapart r (mem_cons_of_mem rule hr)) h
    obtain ⟨ht, hne⟩ := infix_of_infix_rule (hinserted rule mem_cons_self) (hapart rule mem_cons_self) hu hm
    exact ⟨ht, forall_mem_cons.mpr ⟨hne, ho⟩⟩

theorem redacted_applyRedactions (rules : List RedactionRule) (text : Bytes) : Redacted rules text (applyRedactions text rules) := by
  induction rules generalizing text with
  | nil => exact .nil text
  | cons rule rules ih =>
    refine .cons ?_ (ih _)
    unfold applyRedactionRule
    split
    · exact .refl text
    · rename_i hne
      exact replaced_scan (fun h => hne (length_eq_zero_iff.mpr h)) text

/-- With replacements that insert something and share no character with the patterns, no pattern is in the result, and what is not a
pattern is kept. -/
theorem applyRedactions_clean (rules : List RedactionRule) (text : Bytes) (hinserted : ∀ rule ∈ rules, rule.inserted ≠ [])
    (hapart : ∀ rule ∈ rules, ∀ b ∈ rule.inserted, ∀ other ∈ rules, b ∉ other.pattern) :
    (∀ rule ∈ rules, rule.pattern ≠ [] → ¬rule.pattern <:+: applyRedactions text rules) ∧
      Redacted rules text (applyRedactions text rules) := by
  refine ⟨fun rule hrl hne h => ?_, redacted_applyRedactions rules text⟩
  have hbt := infix_of_infix_redactions hinserted (fun r hr b hb => hapart r hr b hb rule hrl) hne h
  exact hbt.2 rule hrl rfl

/-- Two rules, of which the second has the first pattern in its own. -/
theorem applyRedactions_clean_two :
    ¬[97, 97] <:+: applyRedactions [97, 97, 97, 98] [⟨[97, 97], [42]⟩, ⟨[97, 98], [35]⟩] :=
  (applyRedactions_clean [⟨[97, 97], [42]⟩, ⟨[97, 98], [35]⟩] [97, 97, 97, 98] (by decide)
    (by simp [RedactionRule.inserted, cString])).1 ⟨[97, 97], [42]⟩ mem_cons_self (by decide)

end Libft.Logger
