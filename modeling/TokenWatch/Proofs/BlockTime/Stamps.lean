import TokenWatch.BlockTime
import TokenWatch.Proofs.Ethereum.Requests
import TokenWatch.Proofs.Text.Hex
import TokenWatch.Proofs.Time.Date
import TokenWatch.Proofs.Time.Rfc3339

/-!
The cache of block times and the time stamps of blocks: blocks do not share a key, an entry that was
written is read back as the same time, the moment of a stamp is that many seconds after the start of
1970, and what is written to the cache for a stamp is read as its moment.
-/
namespace TokenWatch

namespace BlockTime
open Time Json Text

/-- Blocks do not share a key. -/
theorem key_injective {a b : BlockHash} (h : key a = key b) : a = b := by
  have htext : String.ofList ('0' :: 'x' :: Hex.digits 64 a.toNat) =
      String.ofList ('0' :: 'x' :: Hex.digits 64 b.toNat) := h
  have hdigits : Hex.digits 64 a.toNat = Hex.digits 64 b.toNat := by
    simpa only [List.cons.injEq, true_and] using String.ofList_injective htext
  have hmod := Hex.digits_injective hdigits
  have hsize : 16 ^ 64 = 2 ^ 256 := by decide
  rw [hsize, Nat.mod_eq_of_lt a.isLt, Nat.mod_eq_of_lt b.isLt] at hmod
  exact BitVec.eq_of_toNat_eq hmod

/-- An entry that was written is of use. -/
theorem usable?_toEntry (t : Moment) : usable? (some (some (toEntry t))) = some t := by
  have hread : ofEntry? (toEntry t) = some t := by
    rw [toEntry, ofEntry?, Moment.ofText?_toText]
  simpa only [usable?, Option.join_some, Option.bind_some] using hread

end BlockTime

namespace Time

variable {n : Nat} {t : Moment}

theorem Clock.seconds_ofSeconds (h : n < 86400) : (Clock.ofSeconds n).seconds = n := by
  simp only [Clock.ofSeconds, Clock.seconds]
  omega

namespace Moment

def lastUnixSecond : Nat := 253402300799

theorem exists_ofUnixSeconds?_iff : (∃ t, ofUnixSeconds? n = some t) ↔ n ≤ lastUnixSecond := by
  have hdays : Date.daysBeforeYear 10000 = 3652425 := rfl
  have hepoch : Date.epoch = 719528 := rfl
  unfold lastUnixSecond ofUnixSeconds?
  simp only [Option.map_eq_some_iff, Date.ofNumber?_eq_some_iff]
  constructor
  · rintro ⟨-, d, hnumber, -⟩
    have hlt := d.number_lt
    omega
  · intro hn
    have hnumber : n / 86400 + Date.epoch < Date.daysBeforeYear 10000 := by omega
    obtain ⟨d, hd⟩ := Date.exists_number_eq hnumber
    exact ⟨_, d, hd, rfl⟩

theorem unixSeconds_of_ofUnixSeconds? (h : ofUnixSeconds? n = some t) :
    t.unixSeconds = n ∧ t.clock.nanosecond = 0 ∧ t.offset = 0 := by
  obtain ⟨d, hd, rfl⟩ := Option.map_eq_some_iff.mp h
  have hnumber := Date.ofNumber?_eq_some_iff.mp hd
  have hclock := Clock.seconds_ofSeconds (Nat.mod_lt n (show 86400 > 0 by decide))
  refine ⟨?_, rfl, rfl⟩
  simp only [unixSeconds, hnumber, hclock]
  omega

end Moment
end Time

namespace BlockTime
open Time Json

variable {m n : UInt64} {t u : Moment}

theorem ofTimestamp_eq (n : UInt64) :
    ofTimestamp n =
      match Moment.ofUnixSeconds? n.toNat with
      | some t => .ok t
      | none => .error (.invalidTimestamp n) := by
  -- The equation of functions: at a variable stamp the kernel would count up to the epoch.
  have heq : ofTimestamp = fun n =>
      match Moment.ofUnixSeconds? n.toNat with
      | some t => .ok t
      | none => .error (.invalidTimestamp n) := rfl
  exact congrFun heq n

theorem ofTimestamp_eq_ok_iff : ofTimestamp n = .ok t ↔ Moment.ofUnixSeconds? n.toNat = some t := by
  rw [ofTimestamp_eq]
  cases Moment.ofUnixSeconds? n.toNat with
  | some u => rw [Except.ok.injEq, Option.some.injEq]
  | none => exact iff_of_false nofun nofun

theorem exists_ofTimestamp_iff :
    (∃ t, ofTimestamp n = .ok t) ↔ n.toNat ≤ Moment.lastUnixSecond := by
  simp only [ofTimestamp_eq_ok_iff, Moment.exists_ofUnixSeconds?_iff]

theorem ofTimestamp_of_late (h : Moment.lastUnixSecond < n.toNat) :
    ofTimestamp n = .error (.invalidTimestamp n) := by
  have hnone : Moment.ofUnixSeconds? n.toNat = none := by
    rw [Option.eq_none_iff_forall_ne_some]
    intro t ht
    exact absurd (Moment.exists_ofUnixSeconds?_iff.mp ⟨t, ht⟩) (Nat.not_le.mpr h)
  rw [ofTimestamp_eq, hnone]

/-- Stamps have the same text only if they are the same. -/
theorem toText_eq_iff (hm : ofTimestamp m = .ok t) (hn : ofTimestamp n = .ok u) :
    t.toText = u.toText ↔ m = n := by
  constructor
  · intro htext
    have hread : some t = some u := by
      rw [← Moment.ofText?_toText t, ← Moment.ofText?_toText u, htext]
    obtain rfl := Option.some.inj hread
    obtain ⟨hsecond, -⟩ := Moment.unixSeconds_of_ofUnixSeconds? (ofTimestamp_eq_ok_iff.mp hm)
    obtain ⟨hsecond', -⟩ := Moment.unixSeconds_of_ofUnixSeconds? (ofTimestamp_eq_ok_iff.mp hn)
    exact UInt64.toNat_inj.mp (Int.ofNat_inj.mp (hsecond.symm.trans hsecond'))
  · rintro rfl
    rw [Except.ok.inj (hm.symm.trans hn)]

/-- A stamp has a moment if and only if this lies before year 10000, and is an error otherwise; the
moment is that many seconds after the start of 1970, in universal time. Whatever moment the chain
says of a block, with any fraction and any offset, its text is written to the cache, and whoever
reads that text there has the same moment without asking the chain. Two stamps do not share a
text. -/
theorem times_read_back :
    (∀ n : UInt64, (∃ t, ofTimestamp n = .ok t) ↔ n.toNat ≤ 253402300799) ∧
    (∀ n : UInt64, 253402300799 < n.toNat → ofTimestamp n = .error (.invalidTimestamp n)) ∧
    (∀ n t, ofTimestamp n = .ok t →
      t.unixSeconds = n.toNat ∧ t.clock.nanosecond = 0 ∧ t.offset = 0) ∧
    (∀ {σ : Type} (around : Surroundings (StateM σ)) hash world t,
      let (answer, world') := around.cached (key hash) world
      let (found, world'') := around.lookUp hash world'
      usable? answer = none → found = .ok t →
        resolve around hash world =
          (.ok t, (around.remember (key hash) (.text t.toText) world'').2)) ∧
    (∀ {σ : Type} (around : Surroundings (StateM σ)) hash world t,
      let (answer, world') := around.cached (key hash) world
      answer = some (some (.text t.toText)) → resolve around hash world = (.ok t, world')) ∧
    (∀ t : Moment, ofEntry? (.text t.toText) = some t) ∧
    (∀ m n t u, ofTimestamp m = .ok t → ofTimestamp n = .ok u → (t.toText = u.toText ↔ m = n)) := by
  refine ⟨fun n => exists_ofTimestamp_iff, fun n => ofTimestamp_of_late, fun n t h => ?_, ?_, ?_,
    Moment.ofText?_toText, fun m n t u => toText_eq_iff⟩
  · exact Moment.unixSeconds_of_ofUnixSeconds? (ofTimestamp_eq_ok_iff.mp h)
  · intro σ around hash world t useless found
    exact resolve_of_ok useless found
  · intro σ around hash world t hentry
    have husable : usable? (around.cached (key hash) world).1 = some t := by
      rw [hentry]
      exact usable?_toEntry t
    exact resolve_of_usable husable

/-- The last second of a leap day, and the first one that has no moment. -/
theorem times_read_back_leap_day :
    (∃ t, ofTimestamp 951868799 = .ok t ∧ t.unixSeconds = 951868799 ∧
      t.toText = "2000-02-29T23:59:59Z" ∧ ofEntry? (.text "2000-02-29T23:59:59Z") = some t) ∧
    ofTimestamp 253402300800 = .error (.invalidTimestamp 253402300800) := by
  obtain ⟨-, late, stamps, -, -, entries, -⟩ := times_read_back
  let t : Moment := ⟨⟨2000, 2, 29, by decide⟩, .ofSeconds 86399, 0, by decide⟩
  have hdate : Date.ofNumber? (951868799 / 86400 + Date.epoch) = some t.date :=
    Date.ofNumber?_eq_some_iff.mpr (by decide)
  have hstamp : ofTimestamp 951868799 = .ok t := by
    have hnumber : (951868799 : UInt64).toNat = 951868799 := by decide
    rw [ofTimestamp_eq_ok_iff, hnumber, Moment.ofUnixSeconds?, hdate, Option.map_some]
  have htext : t.toText = "2000-02-29T23:59:59Z" := by decide
  have hentry := entries t
  rw [htext] at hentry
  have hseconds : t.unixSeconds = 951868799 := (stamps _ _ hstamp).1
  exact ⟨⟨t, hstamp, hseconds, htext, hentry⟩, late _ (by decide)⟩

end BlockTime
end TokenWatch
