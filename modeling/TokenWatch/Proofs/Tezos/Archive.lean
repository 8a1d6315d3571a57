import Mathlib.Data.List.Basic
import TokenWatch.Proofs.Tezos.Records
import TokenWatch.Tezos.Watcher

/-!
The records that an explorer holds, in the order in which honest answers bring them.
-/
namespace TokenWatch.Tezos

structure Archive where
  transfers : List TransferRecord
  updates : List UpdateRecord
  /-- An offset can name each of the records of a level. -/
  transfers_fit : ∀ level, (transfers.filter fun r => r.level = level).length < UInt64.size := by
    exact fun _ => Nat.lt_of_le_of_lt (List.length_filter_le _ _) (by decide)
  updates_fit : ∀ level, (updates.filter fun r => r.level = level).length < UInt64.size := by
    exact fun _ => Nat.lt_of_le_of_lt (List.length_filter_le _ _) (by decide)

namespace Archive

variable {a : Archive} {r s : Record} {level : UInt64} {m n : Nat}

def Holds (a : Archive) : Record → Prop
  | .transfer r => r ∈ a.transfers
  | .update r => r ∈ a.updates

def transfersAt (a : Archive) (level : UInt64) : List TransferRecord :=
  (a.transfers.filter fun r => r.level = level).mergeSort fun r s => r.id ≤ s.id

/-- The updates of a level, sorted by id. -/
def updatesAt (a : Archive) (level : UInt64) : List UpdateRecord :=
  (a.updates.filter fun r => r.level = level).mergeSort fun r s => r.id ≤ s.id

theorem length_transfersAt_lt (a : Archive) (level : UInt64) :
    (a.transfersAt level).length < UInt64.size := by
  rw [transfersAt, List.length_mergeSort]
  exact a.transfers_fit level

theorem length_updatesAt_lt (a : Archive) (level : UInt64) :
    (a.updatesAt level).length < UInt64.size := by
  rw [updatesAt, List.length_mergeSort]
  exact a.updates_fit level

def recordsAt (a : Archive) (level : UInt64) : List Record :=
  (a.transfersAt level).map .transfer ++ (a.updatesAt level).map .update

/-- The records of the levels from `m` up to but without `n`. -/
def span (a : Archive) (m n : Nat) : List Record :=
  (List.range' m (n - m)).flatMap fun level => a.recordsAt (.ofNat level)

/-- The records of the levels from `start` to the head, the head included. -/
def replay (a : Archive) (start head : UInt64) : List Record :=
  a.span start.toNat (head.toNat + 1)

theorem mem_recordsAt : r ∈ a.recordsAt level ↔ a.Holds r ∧ r.level = level := by
  cases r with
  | transfer r => simp [recordsAt, transfersAt, Holds, Record.level]
  | update r => simp [recordsAt, updatesAt, Holds, Record.level]

theorem mem_span (hn : n ≤ UInt64.size) :
    r ∈ a.span m n ↔ a.Holds r ∧ m ≤ r.level.toNat ∧ r.level.toNat < n := by
  simp only [span, List.mem_flatMap, List.mem_range'_1, mem_recordsAt]
  constructor
  · rintro ⟨level, hlevel, hr, heq⟩
    have hnat : r.level.toNat = level := by
      rw [heq, UInt64.toNat_ofNat_of_lt']
      omega
    refine ⟨hr, ?_, ?_⟩ <;> omega
  · rintro ⟨hr, hm, hlt⟩
    refine ⟨r.level.toNat, ?_, hr, ?_⟩
    · omega
    · exact UInt64.ofNat_toNat.symm

theorem mem_replay {start head : UInt64} :
    r ∈ a.replay start head ↔ a.Holds r ∧ start ≤ r.level ∧ r.level ≤ head := by
  have hhead := head.toNat_lt
  rw [replay, mem_span (by rw [UInt64.size]; omega), UInt64.le_iff_toNat_le,
    UInt64.le_iff_toNat_le, Nat.lt_succ_iff]

theorem span_of_le (h : n ≤ m) : a.span m n = [] := by
  have hzero : n - m = 0 := by omega
  rw [span, hzero]
  rfl

theorem span_succ (a : Archive) (h : m ≤ level.toNat) :
    a.span m (level.toNat + 1) = a.span m level.toNat ++ a.recordsAt level := by
  have hcount : level.toNat + 1 - m = (level.toNat - m) + 1 := by omega
  have hlast : m + (level.toNat - m) = level.toNat := by omega
  rw [span, hcount, List.range'_1_concat, List.flatMap_append, hlast]
  simp [span]

/-- A longer span begins with a shorter one. -/
theorem span_mono {k : Nat} (h : m ≤ n) : a.span k m <+: a.span k n := by
  obtain ⟨d, hd⟩ := Nat.exists_eq_add_of_le (Nat.sub_le_sub_right h k)
  rw [span, span, hd, ← List.range'_append_1, List.flatMap_append]
  exact List.prefix_append _ _

section Page
variable {α : Type} {l : List α} {offset : Nat}

/-- What a request for the records from an offset on brings. -/
def page (offset : Nat) (l : List α) : List α := (l.drop offset).take pageLimit

theorem take_append_page : l.take offset ++ page offset l = l.take (offset + pageLimit) :=
  List.take_add.symm

/-- A page that is not full is the last one. -/
theorem take_append_page_of_short (h : ¬pageLimit ≤ (page offset l).length) :
    l.take offset ++ page offset l = l := by
  have hshort : (l.drop offset).length ≤ pageLimit := by
    rw [page, List.length_take] at h
    omega
  rw [page, List.take_of_length_le hshort, List.take_append_drop]

/-- After a full page the offset has not come to the end of its range. -/
theorem toNat_nextPage {offset : UInt64} (fits : l.length < UInt64.size)
    (full : pageLimit ≤ (page offset.toNat l).length) :
    (nextPage offset).toNat = offset.toNat + pageLimit := by
  have hroom : offset.toNat + pageLimit ≤ l.length := by
    rw [page, List.length_take, List.length_drop] at full
    have hlimit : 0 < pageLimit := by decide
    omega
  rw [nextPage, UInt64.toNat_add]
  exact Nat.mod_eq_of_lt (Nat.lt_of_le_of_lt hroom fits)

theorem take_append_page_of_full {offset : UInt64} (fits : l.length < UInt64.size)
    (full : pageLimit ≤ (page offset.toNat l).length) :
    l.take offset.toNat ++ page offset.toNat l = l.take (nextPage offset).toNat := by
  rw [take_append_page, toNat_nextPage fits full]

end Page

section GapFree
variable {first : UInt64} {rs es : List Record}

/-- Before each record stand all records of lower levels, from a first level on. -/
def GapFree (a : Archive) (first : UInt64) (rs : List Record) : Prop :=
  ∀ p r q, rs = p ++ r :: q → ∀ s, a.Holds s → first ≤ s.level → s.level < r.level → s ∈ p

theorem gapFree_nil : a.GapFree first [] := by
  intro p r q h
  simp at h

theorem GapFree.of_prefix (h : a.GapFree first es) (hpre : rs <+: es) : a.GapFree first rs := by
  obtain ⟨rest, rfl⟩ := hpre
  intro p r q hsplit
  exact h p r (q ++ rest) (by simp [hsplit])

/-- All records of lower levels than one in the list are in the list. -/
theorem GapFree.mem (h : a.GapFree first rs) (hr : r ∈ rs) (hs : a.Holds s)
    (hfirst : first ≤ s.level) (hlt : s.level < r.level) : s ∈ rs := by
  obtain ⟨p, q, hsplit⟩ := List.append_of_mem hr
  rw [hsplit]
  exact List.mem_append_left _ (h p r q hsplit s hs hfirst hlt)

theorem GapFree.append (h : a.GapFree first rs)
    (hes : ∀ p r q, es = p ++ r :: q →
      ∀ s, a.Holds s → first ≤ s.level → s.level < r.level → s ∈ rs ++ p) :
    a.GapFree first (rs ++ es) := by
  intro p r q hsplit
  rcases List.append_eq_append_iff.mp hsplit with ⟨left, hp, hes'⟩ | ⟨right, hrs, hright⟩
  · rw [hp]
    exact hes left r q hes'
  · cases right with
    | nil =>
      have hp : rs = p := by simpa using hrs
      have := hes [] r q hright.symm
      simpa [hp] using this
    | cons r' right =>
      obtain ⟨rfl, hq⟩ := List.cons.inj hright
      exact h p r right hrs

/-- Whole levels can be added one after the other, if nothing is missing below them. -/
theorem GapFree.append_span (h : a.GapFree first rs)
    (hlow : ∀ s, a.Holds s → first ≤ s.level → s.level.toNat < m → s ∈ rs)
    (hn : n ≤ UInt64.size) : a.GapFree first (rs ++ a.span m n) := by
  induction n with
  | zero =>
    rw [span_of_le (Nat.zero_le m), List.append_nil]
    exact h
  | succ n ih =>
    by_cases hm : m ≤ n
    · have hlevel : (UInt64.ofNat n).toNat = n := UInt64.toNat_ofNat_of_lt' hn
      have hspan := span_succ a (show m ≤ (UInt64.ofNat n).toNat by rwa [hlevel])
      rw [hlevel] at hspan
      rw [hspan, ← List.append_assoc]
      apply (ih (by omega)).append
      intro p r q hsplit s hs hfirst hlt
      have hr : r.level = .ofNat n := by
        have : r ∈ a.recordsAt (.ofNat n) := by simp [hsplit]
        exact (mem_recordsAt.mp this).2
      have hlt : s.level.toNat < n := by
        rw [hr, UInt64.lt_iff_toNat_lt, hlevel] at hlt
        exact hlt
      apply List.mem_append_left
      by_cases hbelow : s.level.toNat < m
      · exact List.mem_append_left _ (hlow s hs hfirst hbelow)
      · have hspan : s ∈ a.span m n := (mem_span (by omega)).mpr ⟨hs, by omega, hlt⟩
        exact List.mem_append_right _ hspan
    · rw [span_of_le (by omega), List.append_nil]
      exact h

end GapFree
end Archive
end TokenWatch.Tezos
