import Libft.Networking.Acknowledge
import Mathlib.Data.Set.Insert

/-!
# What the recorded ranges hold

`Records` says what the ranges of a receiver are after it recorded a set of numbers: at most four ranges with their ends the right
way round, holding recorded numbers only, the first of which ends at the largest recorded number. Recording keeps it
(`Records.recordPacket`) as long as the two numbers that the source's tests for neighbours confuse, zero and the largest word, are
not both recorded.
-/

namespace Libft.Networking

open List AckRange Option

/-- A range holds the numbers from its start to its end. -/
def AckRange.Holds (range : AckRange) (n : UInt64) : Prop := range.start ≤ n ∧ n ≤ range.end_

instance (range : AckRange) (n : UInt64) : Decidable (range.Holds n) := inferInstanceAs (Decidable (_ ∧ _))

/-- One of the ranges holds the number. -/
def Held (ranges : List AckRange) (n : UInt64) : Prop := ∃ r ∈ ranges, r.Holds n

instance (ranges : List AckRange) (n : UInt64) : Decidable (Held ranges n) := inferInstanceAs (Decidable (∃ r ∈ _, _))

theorem holds_single_iff {n m : UInt64} : Holds ⟨n, n⟩ m ↔ m = n ∨ Held [] m := by
  simp [Held, Holds, UInt64.le_antisymm_iff, and_comm]

/-- A range is made of a set of numbers: its ends are the right way round, and all it holds is in the set. -/
structure AckRange.MadeOf (range : AckRange) (S : Set UInt64) : Prop where
  valid : range.start ≤ range.end_
  sub : ∀ n, range.Holds n → n ∈ S

namespace AckRange.MadeOf

variable {range : AckRange} {S T : Set UInt64} {n : UInt64}

theorem start_mem (h : range.MadeOf S) : range.start ∈ S := h.sub _ ⟨UInt64.le_refl _, h.valid⟩

theorem end_mem (h : range.MadeOf S) : range.end_ ∈ S := h.sub _ ⟨h.valid, UInt64.le_refl _⟩

theorem mono (h : range.MadeOf S) (hST : S ⊆ T) : range.MadeOf T := ⟨h.valid, fun n hn => hST (h.sub n hn)⟩

/-- A range that holds a number beside what others made of the set hold. -/
theorem of_holds_iff {middle : List AckRange} (h : ∀ m, range.Holds m ↔ m = n ∨ Held middle m) (hm : ∀ r ∈ middle, r.MadeOf S) :
    range.MadeOf (insert n S) where
  valid := by
    have hn := (h n).2 (.inl rfl)
    exact UInt64.le_trans hn.1 hn.2
  sub m hm' := by
    rcases (h m).1 hm' with rfl | ⟨r, hr, hh⟩
    · exact Set.mem_insert m S
    · exact Set.mem_insert_of_mem _ ((hm r hr).sub m hh)

end AckRange.MadeOf

/-- Zero and the largest word are not both in the set, so that no number has a neighbour across the wrap. -/
def NoWrap (S : Set UInt64) : Prop := ¬((0 : UInt64) ∈ S ∧ (-1 : UInt64) ∈ S)

theorem NoWrap.ne_zero {S : Set UInt64} {n e : UInt64} (hw : NoWrap (insert n S)) (he : e ∈ S) (hn : n = e + 1) : n ≠ 0 := by
  rintro rfl
  have : e = -1 := by grind
  exact hw ⟨Set.mem_insert _ _, Set.mem_insert_of_mem _ (this ▸ he)⟩

theorem NoWrap.start_ne_zero {S : Set UInt64} {n s : UInt64} (hw : NoWrap (insert n S)) (hs : s ∈ S) (hn : n = s - 1) : s ≠ 0 := by
  rintro rfl
  have : n = -1 := by grind
  exact hw ⟨Set.mem_insert_of_mem _ hs, this ▸ Set.mem_insert _ _⟩

/-! ## What the scan does -/

/-- The scan goes past a range that neither holds the number nor has it for a neighbour. -/
def AckRange.Misses (range : AckRange) (n : UInt64) : Prop :=
  ¬range.Holds n ∧ ¬(n ≠ -1 ∧ n = range.end_ + 1) ∧ ¬(n ≠ 0 ∧ n = range.start - 1)

/-- How a number comes to be in a range: it was there, or it extends a range, or it joins two. With the ranges below, whether the
number is new, the ranges it has to do with and the one that takes their place. -/
inductive Absorbs (n : UInt64) (low : List AckRange) : Bool → List AckRange → AckRange → Prop
  | inside {range : AckRange} (h : range.Holds n) : Absorbs n low false [range] range
  | extendEnd {range : AckRange} (hne : n ≠ -1) (h : n = range.end_ + 1) : Absorbs n low true [range] ⟨range.start, n⟩
  | extendStart {range : AckRange} (h : n = range.start - 1) (hlow : ∀ below ∈ low.head?, below.end_ + 1 ≠ n) :
      Absorbs n low true [range] ⟨n, range.end_⟩
  | join {above range : AckRange} (hend : n = range.end_ + 1) (hstart : n = above.start - 1) :
      Absorbs n low true [above, range] ⟨range.start, above.end_⟩

variable {tl : List AckRange}

/-- Where a scan finds a place for a number. -/
theorem recordScan_eq_some {n : UInt64} :
    ∀ {passed out : List AckRange} {new : Bool}, (∀ r ∈ passed, r.Misses n) → recordScan n passed tl = some (new, out) →
      ∃ hi middle range low, passed ++ tl = hi ++ middle ++ low ∧ out = hi ++ range :: low ∧
        Absorbs n low new middle range ∧ ∀ r ∈ hi, r.Misses n := by
  induction tl with
  | nil => simp [recordScan]
  | cons range tl ih =>
    intro passed out new hp h
    unfold recordScan at h
    split at h
    · rename_i hin
      cases h
      exact ⟨passed, [range], range, tl, by simp, rfl, .inside hin, hp⟩
    rename_i ho
    split at h
    · rename_i hup
      split at h
      · rename_i above ha
        obtain ⟨hi, rfl⟩ := getLast?_eq_some_iff.1 ha
        split at h
        · -- the number closes the gap to the range above
          rename_i hjn
          cases h
          rw [forall_mem_append] at hp
          exact ⟨hi, [above, range], _, tl, by simp, by simp, .join hup.2 (by grind), hp.1⟩
        · cases h
          exact ⟨hi ++ [above], [range], _, tl, by simp, rfl, .extendEnd hup.1 hup.2, hp⟩
      · rename_i hno
        cases h
        cases getLast?_eq_none_iff.1 hno
        exact ⟨[], [range], _, tl, rfl, rfl, .extendEnd hup.1 hup.2, hp⟩
    rename_i hup
    split at h
    · rename_i hd
      split at h
      · rename_i below tl
        split at h
        · -- the number closes the gap to the range below
          rename_i hjn
          cases h
          exact ⟨passed, [range, below], _, tl, by simp, rfl, .join hjn.symm hd.2, hp⟩
        · rename_i hg
          cases h
          exact ⟨passed, [range], _, below :: tl, by simp, rfl, .extendStart hd.2 (by simpa using hg), hp⟩
      · cases h
        exact ⟨passed, [range], _, [], by simp, rfl, .extendStart hd.2 (by simp), hp⟩
    · rename_i hd
      have := ih (forall_mem_append.2 ⟨hp, by simpa using ⟨ho, hup, hd⟩⟩) h
      simpa using this

/-- A number that the scan has no place for is missed by every range. -/
theorem recordScan_eq_none {n : UInt64} : ∀ {passed : List AckRange}, recordScan n passed tl = none → ∀ r ∈ tl, r.Misses n := by
  induction tl with
  | nil => simp
  | cons range tl ih =>
    intro passed h
    unfold recordScan at h
    split at h
    · cases h
    rename_i ho
    split at h
    · split at h
      · split at h <;> cases h
      · cases h
    rename_i hup
    split at h
    · split at h
      · split at h <;> cases h
      · cases h
    rename_i hd
    exact forall_mem_cons.2 ⟨⟨ho, hup, hd⟩, ih h⟩

section Absorbs

variable {S : Set UInt64} {n : UInt64} {low middle : List AckRange} {range : AckRange} {new : Bool}
  (h : Absorbs n low new middle range) (hw : NoWrap (insert n S)) (hm : ∀ r ∈ middle, r.MadeOf S)

include h hw hm

/-- The range that takes the number in holds it, and what those it replaces held. -/
theorem Absorbs.holds_iff (m : UInt64) : range.Holds m ↔ m = n ∨ Held middle m := by
  cases h with
  | inside hin =>
    simp only [Held, mem_singleton, exists_eq_left]
    exact ⟨.inr, fun hm => hm.elim (fun hm => hm ▸ hin) id⟩
  | extendEnd hne hn =>
    have hrg := hm _ mem_cons_self
    have hz := hw.ne_zero hrg.end_mem hn
    have hv := hrg.valid
    simp only [Held, mem_singleton, exists_eq_left, Holds]
    grind
  | extendStart hn hg =>
    have hrg := hm _ mem_cons_self
    have hz := hw.start_ne_zero hrg.start_mem hn
    have hv := hrg.valid
    simp only [Held, mem_singleton, exists_eq_left, Holds]
    grind
  | join he hs =>
    have ha := hm _ mem_cons_self
    have hrg := hm _ (mem_cons_of_mem _ mem_cons_self)
    have hz := hw.ne_zero hrg.end_mem he
    have hz' := hw.start_ne_zero ha.start_mem hs
    have hv := hrg.valid
    have hv' := ha.valid
    simp only [Held, mem_cons, not_mem_nil, or_false, exists_eq_or_imp, exists_eq_left, Holds]
    grind

/-- Where the range that takes the number in ends: where the first it replaces did, or at the number right above the only one. -/
theorem Absorbs.end_eq :
    ∃ top tl, middle = top :: tl ∧
      (range.end_ = top.end_ ∧ n ≤ top.end_ ∨ range.end_ = n ∧ n ≠ -1 ∧ n = top.end_ + 1 ∧ top.end_ < n) := by
  cases h with
  | inside hin => exact ⟨_, _, rfl, .inl ⟨rfl, hin.2⟩⟩
  | extendEnd hne hn =>
    have hz := hw.ne_zero (hm _ mem_cons_self).end_mem hn
    exact ⟨_, _, rfl, .inr ⟨rfl, hne, hn, by grind⟩⟩
  | extendStart hn | join _ hn =>
    have ha := hm _ mem_cons_self
    have hz := hw.start_ne_zero ha.start_mem hn
    have hv := ha.valid
    exact ⟨_, _, rfl, .inl ⟨rfl, by grind⟩⟩

end Absorbs

/-! ## What a receiver has recorded -/

/-- The ranges and the largest number of a receiver that recorded a set of numbers. -/
structure Records (S : Set UInt64) (largest : UInt64) (ranges : List AckRange) : Prop where
  length_le : ranges.length ≤ ackRangeLimit
  madeOf : ∀ r ∈ ranges, r.MadeOf S
  le : ∀ n ∈ S, n ≤ largest
  head : ranges.head?.map end_ = some largest ∨ ranges = [] ∧ S = ∅ ∧ largest = 0

namespace Records

variable {S : Set UInt64} {largest n : UInt64} {ranges : List AckRange}

theorem empty : Records ∅ 0 [] where
  length_le := by decide
  madeOf := by simp
  le := by simp
  head := .inr ⟨rfl, rfl, rfl⟩

theorem end_le (h : Records S largest ranges) {r : AckRange} (hr : r ∈ ranges) : r.end_ ≤ largest :=
  h.le _ (h.madeOf r hr).end_mem

/-- A receiver that recorded something holds the largest number in its first range. -/
theorem exists_top (h : Records S largest ranges) (hS : S.Nonempty) : ∃ r ∈ ranges, r.end_ = largest := by
  rcases h.head with hh | ⟨-, hS', -⟩
  · obtain ⟨r, hr, he⟩ := map_eq_some_iff.1 hh
    exact ⟨r, mem_of_mem_head? hr, he⟩
  · exact absurd hS' hS.ne_empty

/-- The largest number after one more. -/
def next (largest n : UInt64) : UInt64 := if largest < n then n else largest

theorem le_next (h : Records S largest ranges) : ∀ m ∈ insert n S, m ≤ next largest n := by
  intro m hm
  unfold next
  rcases Set.mem_insert_iff.1 hm with rfl | hm
  · grind
  · have := h.le m hm
    grind

/-- Inserting a number that no range holds. -/
theorem insertRange (h : Records S largest ranges) (ho : ∀ r ∈ ranges, ¬r.Holds n) :
    Records (insert n S) (next largest n) (insertRange n ranges) where
  length_le := by
    unfold Networking.insertRange
    simp only [length_take]
    omega
  madeOf r hr := by
    have hr := mem_of_mem_take hr
    rcases mem_append.1 hr with hr | hr
    · exact (h.madeOf r (takeWhile_sublist _ |>.subset hr)).mono (Set.subset_insert _ _)
    rcases mem_cons.1 hr with rfl | hr
    · exact .of_holds_iff (fun _ => holds_single_iff) nofun
    · exact (h.madeOf r (dropWhile_sublist _ |>.subset hr)).mono (Set.subset_insert _ _)
  le := h.le_next
  head := by
    left
    cases ranges with
    | nil =>
      rcases h.head with hh | ⟨-, -, rfl⟩
      · cases hh
      · simp [Networking.insertRange, ackRangeLimit, next]
    | cons first tl =>
      have hf : first.end_ = largest := by
        rcases h.head with hh | ⟨hh, -⟩
        · simpa using hh
        · cases hh
      have hv := (h.madeOf first (by simp)).valid
      have hn := ho first (by simp)
      unfold Networking.insertRange next
      by_cases hlt : n < first.start
      · have : ¬largest < n := by grind
        simp [ackRangeLimit, hlt, hf, this]
      · have : largest < n := by
          simp only [Holds] at hn
          grind
        simp [ackRangeLimit, hlt, this]

/-- Recording a number keeps what the ranges hold. -/
theorem recordPacket (h : Records S largest ranges) (hw : NoWrap (insert n S)) :
    Records (insert n S) (next largest n) (recordPacket n ranges).2 := by
  unfold Networking.recordPacket
  cases hs : recordScan n [] ranges with
  | none => exact h.insertRange fun r hr => (recordScan_eq_none hs r hr).1
  | some rs =>
    obtain ⟨new, out⟩ := rs
    obtain ⟨hi, middle, range, low, hrgs, rfl, ha, hms⟩ := recordScan_eq_some (by simp) hs
    rw [nil_append] at hrgs
    subst hrgs
    rw [getD_some]
    have hmd := h.madeOf
    rw [forall_mem_append, forall_mem_append] at hmd
    obtain ⟨top, tl, rfl, ht⟩ := ha.end_eq hw hmd.1.2
    have hle : top.end_ ≤ largest := h.end_le (by simp)
    refine ⟨?_, ?_, h.le_next, .inl ?_⟩
    · have := h.length_le
      simp only [length_append, length_cons] at this ⊢
      exact Nat.le_trans (by omega) this
    · have hmn {r : AckRange} (hr : r.MadeOf S) : r.MadeOf (insert n S) := hr.mono (Set.subset_insert _ _)
      refine forall_mem_append.2 ⟨fun r hr => hmn (hmd.1.1 r hr), forall_mem_cons.2 ⟨?_, fun r hr => hmn (hmd.2 r hr)⟩⟩
      exact .of_holds_iff (ha.holds_iff hw hmd.1.2) hmd.1.2
    · cases hi with
      | nil =>
        have hf : top.end_ = largest := by simpa using h.head
        rcases ht with ⟨he, hn⟩ | ⟨he, -, -, hn⟩
        · have : ¬largest < n := hf ▸ UInt64.not_lt.2 hn
          simp [next, this, he, hf]
        · simp [next, ← hf, hn, he]
      | cons first hi =>
        have hf : first.end_ = largest := by simpa using h.head
        have hmi := (hms first mem_cons_self).2.1
        have : ¬largest < n := by grind
        simp [next, this, hf]

/-- Recording a number that arrives. -/
theorem recordReceived {c : ConnectionRecord} (h : Records S c.largestReceived c.receivedRanges) (hw : NoWrap (insert n S)) :
    Records (insert n S) (c.recordReceived n).largestReceived (c.recordReceived n).receivedRanges := by
  have hr := h.recordPacket hw
  unfold ConnectionRecord.recordReceived
  split
  · rename_i ranges hd
    have hle : ¬c.largestReceived < n := by
      unfold Networking.recordPacket at hd
      cases hs : recordScan n [] c.receivedRanges with
      | none => simp [hs] at hd
      | some rs =>
        simp only [hs, getD_some] at hd
        subst hd
        obtain ⟨hi, middle, range, low, hrgs, -, ha, -⟩ := recordScan_eq_some (by simp) hs
        cases ha with
        | inside hin => exact UInt64.not_lt.2 (UInt64.le_trans hin.2 (h.end_le (by simp_all)))
    simpa [hd, next, hle] using hr
  · rename_i ranges hn
    simpa [hn, next] using hr

end Records

end Libft.Networking
