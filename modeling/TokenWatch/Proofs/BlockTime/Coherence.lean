import TokenWatch.Proofs.BlockTime.Callers
import TokenWatch.Proofs.BlockTime.Stamps

/-!
Resolutions of block times at the same time over one cache that may fail. Entries are written only
with what the chain says of their block, and are of use from then on.
-/
namespace TokenWatch.BlockTime.Resolutions
open Time Json

variable {chain : BlockHash → Except BlockTime.Error Moment} {cache : Table Value}
  {hashes : List BlockHash} {s v : Resolutions} {caller : Nat} {works : Bool} {ns : List Note}
  {steps : List (Nat × Bool)}

section Entries

/-- A read that works after a write that worked yields what was written. -/
def Late (chain : BlockHash → Except BlockTime.Error Moment) (earlier later : Note) : Prop :=
  ∀ writer caller hash entry, earlier = .wrote writer hash true →
    later = .read caller hash (some entry) → ∃ t, chain hash = .ok t ∧ entry = some (toEntry t)

structure Cached (chain : BlockHash → Except BlockTime.Error Moment) (cache : Table Value)
    (ns : List Note) (now : Table Value) : Prop where
  kept : ∀ k, now.get? k = cache.get? k ∨
    ∃ caller hash t, .lookedUp caller hash ∈ ns ∧ k = key hash ∧ chain hash = .ok t ∧
      now.get? k = some (toEntry t)
  wrote : ∀ caller hash, .wrote caller hash true ∈ ns →
    ∃ t, chain hash = .ok t ∧ now.get? (key hash) = some (toEntry t)
  seen : ∀ caller hash entry, .read caller hash (some entry) ∈ ns →
    entry = cache.get? (key hash) ∨ ∃ t, chain hash = .ok t ∧ entry = some (toEntry t)
  late : ns.Pairwise (Late chain)

variable {now : Table Value}

theorem cached_start (chain : BlockHash → Except BlockTime.Error Moment) (cache : Table Value) :
    Cached chain cache [] cache where
  kept _ := .inl rfl
  wrote := nofun
  seen := nofun
  late := .nil

/-- An entry is as it was at the start, or what the chain said of its own block. -/
theorem Cached.entry (h : Cached chain cache ns now) (hash : BlockHash) :
    now.get? (key hash) = cache.get? (key hash) ∨
      ∃ caller t, .lookedUp caller hash ∈ ns ∧ chain hash = .ok t ∧
        now.get? (key hash) = some (toEntry t) := by
  rcases h.kept (key hash) with hkept | ⟨caller, other, t, hlooked, hkey, hchain, hentry⟩
  · exact .inl hkept
  · obtain rfl := key_injective hkey
    exact .inr ⟨caller, t, hlooked, hchain, hentry⟩

theorem Cached.kept_append (h : Cached chain cache ns now) (n : Note) (k : String) :
    now.get? k = cache.get? k ∨
      ∃ caller hash t, .lookedUp caller hash ∈ ns ++ [n] ∧ k = key hash ∧ chain hash = .ok t ∧
        now.get? k = some (toEntry t) := by
  rcases h.kept k with hkept | ⟨caller, hash, t, hlooked, hrest⟩
  · exact .inl hkept
  · exact .inr ⟨caller, hash, t, List.mem_append_left _ hlooked, hrest⟩

/-- The cache stays as it is, and what is read is what stands there. -/
theorem Cached.look {n : Note} (h : Cached chain cache ns now)
    (hwrote : ∀ writer hash, n ≠ .wrote writer hash true)
    (hread : ∀ caller hash entry, n = .read caller hash (some entry) →
      entry = now.get? (key hash)) : Cached chain cache (ns ++ [n]) now where
  kept := h.kept_append n
  wrote writer hash hmem := by
    rcases List.mem_append.mp hmem with hmem | hmem
    · exact h.wrote writer hash hmem
    · exact absurd (List.mem_singleton.mp hmem).symm (hwrote _ _)
  seen caller hash entry hmem := by
    rcases List.mem_append.mp hmem with hmem | hmem
    · exact h.seen caller hash entry hmem
    · rw [hread caller hash entry (List.mem_singleton.mp hmem).symm]
      exact (h.entry hash).imp_right fun ⟨_, t, _, ht⟩ => ⟨t, ht⟩
  late := by
    rw [List.pairwise_append]
    refine ⟨h.late, List.pairwise_singleton _ _, fun earlier hearlier later hlater => ?_⟩
    rintro writer caller hash entry rfl rfl
    rw [hread caller hash entry (List.mem_singleton.mp hlater).symm]
    exact h.wrote writer hash hearlier

/-- What the chain said of a block is written under its key. -/
theorem Cached.put {hash : BlockHash} {t : Moment} (h : Cached chain cache ns now)
    (hchain : chain hash = .ok t) (hlooked : .lookedUp caller hash ∈ ns) :
    Cached chain cache (ns ++ [.wrote caller hash true]) (now.put (key hash) (toEntry t)) where
  kept k := by
    rw [Table.get?_put]
    split
    · rename_i hk
      exact .inr ⟨caller, hash, t, List.mem_append_left _ hlooked, hk, hchain, rfl⟩
    · exact h.kept_append _ k
  wrote writer other hmem := by
    rw [Table.get?_put]
    split
    · rename_i hk
      obtain rfl := key_injective hk
      exact ⟨t, hchain, rfl⟩
    · rename_i hk
      rcases List.mem_append.mp hmem with hmem | hmem
      · exact h.wrote writer other hmem
      · cases List.mem_singleton.mp hmem
        exact absurd rfl hk
  seen reader other entry hmem := by
    rcases List.mem_append.mp hmem with hmem | hmem
    · exact h.seen reader other entry hmem
    · cases List.mem_singleton.mp hmem
  late := by
    rw [List.pairwise_append]
    refine ⟨h.late, List.pairwise_singleton _ _, fun earlier _ later hlater => ?_⟩
    rintro writer reader other entry - rfl
    cases List.mem_singleton.mp hlater

theorem Cached.step (h : Cached chain cache ns s.cache) (accounted : Accounted chain hashes ns s)
    (step : act? chain s (caller, works) = some v) :
    Cached chain cache (ns ++ s.note (caller, works)) v.cache := by
  obtain ⟨hash, hc, hnote, rfl⟩ | ⟨hash, hc, hnote, rfl⟩ | ⟨hash, t, hc, hnote, rfl⟩ :=
    act_cases step
  · rw [hnote]
    refine h.look nofun fun reader other entry heq => ?_
    obtain ⟨-, rfl, hanswer⟩ := Note.read.inj heq
    cases works with
    | false => cases hanswer
    | true => exact (Option.some.inj hanswer).symm
  · rw [hnote]
    exact h.look nofun nofun
  · rw [hnote]
    cases works with
    | false => exact h.look nofun nofun
    | true =>
      obtain ⟨hchain, hlooked, -⟩ := accounted.found hc
      exact h.put hchain hlooked

/-- A step that changes an entry is a write that works, of what the chain said. -/
theorem found_of_change {k : String} (step : act? chain s (caller, works) = some v)
    (change : v.cache.get? k ≠ s.cache.get? k) :
    ∃ hash t, s.callers[caller]? = some (.found hash t) ∧ works = true ∧ k = key hash ∧
      v.cache.get? k = some (toEntry t) := by
  obtain ⟨hash, hc, hnote, rfl⟩ | ⟨hash, hc, hnote, rfl⟩ | ⟨hash, t, hc, hnote, rfl⟩ :=
    act_cases step
  · exact absurd rfl change
  · exact absurd rfl change
  · cases works with
    | false => exact absurd rfl change
    | true =>
      simp only [if_true] at change ⊢
      by_cases hk : k = key hash
      · exact ⟨hash, t, hc, trivial, hk, by rw [Table.get?_put, if_pos hk]⟩
      · rw [Table.get?_put, if_neg hk] at change
        exact absurd rfl change

end Entries

theorem kept_of_run (run : Run (act? chain) Anything (start cache hashes) steps s) :
    let ns := Run.noted (act? chain) note (start cache hashes) steps
    Accounted chain hashes ns s ∧ Cached chain cache ns s.cache :=
  run.preserves_noted (P := fun ns s => Accounted chain hashes ns s ∧ Cached chain cache ns s.cache)
    (fun _ _ _ _ ⟨accounted, cached⟩ _ step => ⟨accounted.step step, cached.step accounted step⟩)
    ⟨accounted_start chain cache hashes, cached_start chain cache⟩

/-- Where the cache was of no use at the start, it is of use only with what the chain says. -/
theorem Cached.outcome_eq {hash : BlockHash} {answer : Option (Option Value)}
    (h : Cached chain cache ns now) (fresh : usable? (some (cache.get? (key hash))) = none)
    (hread : .read caller hash answer ∈ ns) : outcome chain hash answer = chain hash := by
  cases answer with
  | none => rfl
  | some entry =>
    rcases h.seen caller hash entry hread with rfl | ⟨t, hchain, rfl⟩
    · simp only [outcome, fresh]
    · simp only [outcome, usable?_toEntry, hchain]

/-- A caller that read after a write that worked did not ask the chain. -/
theorem not_lookedUp_of_late {writer : Nat} {hash : BlockHash} {entry : Option Value}
    {earlier later : Note} (sparing : Sparing ns) (hlate : Late chain earlier later)
    (hlater : later ∈ ns) (hwrote : earlier = .wrote writer hash true)
    (hread : later = .read caller hash (some entry)) (hash' : BlockHash) :
    .lookedUp caller hash' ∉ ns := by
  intro hlooked
  obtain ⟨t, -, rfl⟩ := hlate writer caller hash entry hwrote hread
  obtain ⟨answer, hread', huseless⟩ := sparing.lookedUp caller hash' hlooked
  have hanswer := sparing.readOnce caller hash' hash _ _ hread' (hread ▸ hlater)
  rw [hanswer, usable?_toEntry] at huseless
  cases huseless

/-- Any number of resolutions at the same time, over a cache that works or fails from call to call.
Each returns within three steps of its own. It comes to the time in the entry that it read, and
without a usable one to what the chain says of the block, so that it does not fail for the cache. An
entry changes only when a caller whose look-up succeeded writes, only under the key of the block
that was looked up, and only to that block's time. Resolutions of a block whose entry was of no use
at the start all come to what the chain says. After a write that worked, a resolution of the block
whose read works does not look it up. -/
theorem resolutions_coherent (run : Run (act? chain) Anything (start cache hashes) steps s) :
    let ns := Run.noted (act? chain) note (start cache hashes) steps
    s.callers.map Resolution.hash = hashes ∧
    (∀ (caller : Nat) (flags : List Bool), caller < hashes.length → flags.length = 3 →
      ∃ n v hash result, Run (act? chain) Anything s ((flags.take n).map (caller, ·)) v ∧
        v.callers[caller]? = some (.returned hash result)) ∧
    (∀ (caller : Nat) hash result, s.callers[caller]? = some (.returned hash result) →
      ∃ answer, .read caller hash answer ∈ ns ∧ result = outcome chain hash answer) ∧
    (∀ caller works v k, act? chain s (caller, works) = some v →
      v.cache.get? k ≠ s.cache.get? k →
        ∃ hash t, .lookedUp caller hash ∈ ns ∧ chain hash = .ok t ∧ works = true ∧ k = key hash ∧
          v.cache.get? k = some (toEntry t)) ∧
    (∀ hash, s.cache.get? (key hash) = cache.get? (key hash) ∨
      ∃ caller t, .lookedUp caller hash ∈ ns ∧ chain hash = .ok t ∧
        s.cache.get? (key hash) = some (toEntry t)) ∧
    (∀ (caller : Nat) hash result, usable? (some (cache.get? (key hash))) = none →
      s.callers[caller]? = some (.returned hash result) → result = chain hash) ∧
    ns.Pairwise fun earlier later => ∀ writer caller hash entry,
      earlier = .wrote writer hash true → later = .read caller hash (some entry) →
        ∀ hash', .lookedUp caller hash' ∉ ns := by
  intro ns
  obtain ⟨accounted, cached⟩ : Accounted chain hashes ns s ∧ Cached chain cache ns s.cache :=
    kept_of_run run
  have hreturned : ∀ (caller : Nat) hash result, s.callers[caller]? = some (.returned hash result) →
      ∃ answer, .read caller hash answer ∈ ns ∧ result = outcome chain hash answer :=
    fun caller hash result hc => accounted.told caller _ hc
  refine ⟨accounted.hashes, fun caller flags hlt hflags => ?_, hreturned,
    fun caller works v k step change => ?_, cached.entry, fun caller hash result fresh hc => ?_, ?_⟩
  · rw [← accounted.hashes, List.length_map] at hlt
    exact comes_to_return (List.getElem?_eq_getElem hlt) (hflags ▸ Resolution.left_le _)
  · obtain ⟨hash, t, hc, hworks, hk, hentry⟩ := found_of_change step change
    obtain ⟨hchain, hlooked, -⟩ := accounted.found hc
    exact ⟨hash, t, hlooked, hchain, hworks, hk, hentry⟩
  · obtain ⟨answer, hread, rfl⟩ := hreturned caller hash result hc
    exact cached.outcome_eq fresh hread
  · refine cached.late.imp_of_mem fun _ hlater hlate writer caller hash entry hwrote hread => ?_
    exact not_lookedUp_of_late accounted.sparing hlate hlater hwrote hread

/-- The second of two callers reads what the first has written. -/
theorem resolutions_coherent_twice :
    let t : Moment := ⟨⟨1970, 1, 1, by decide⟩, .ofSeconds 0, 0, by decide⟩
    let steps := [(0, true), (0, true), (0, true), (1, true)]
    ∃ s : Resolutions, Run (act? fun _ => .ok t) Anything (start .empty [7, 7]) steps s ∧
      s.callers = [.returned 7 (.ok t), .returned 7 (.ok t)] ∧
      ∀ (caller : Nat) hash result,
        s.callers[caller]? = some (.returned hash result) → result = .ok t := by
  intro t steps
  have hread : read (Table.put .empty (key 7) (toEntry t)) 7 true = .returned 7 (.ok t) :=
    read_of_usable (by rw [answer, if_pos rfl, Table.get?_put, if_pos rfl, usable?_toEntry])
  have run : Run (act? fun _ => .ok t) Anything (start .empty [7, 7]) steps
      ⟨Table.put .empty (key 7) (toEntry t), [.returned 7 (.ok t),
        read (Table.put .empty (key 7) (toEntry t)) 7 true]⟩ := .of_foldlM rfl
  rw [hread] at run
  obtain ⟨-, -, -, -, -, hsame, -⟩ := resolutions_coherent run
  exact ⟨_, run, rfl, fun caller hash result => hsame caller hash result rfl⟩

end TokenWatch.BlockTime.Resolutions
