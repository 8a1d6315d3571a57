import TokenWatch.BlockTime.Resolutions
import TokenWatch.Proofs.Run

/-!
The callers of the resolver, one by one: each reads the cache once, asks the chain only if that was
of no use, and returns within three steps.
-/
namespace TokenWatch.BlockTime
open Time Json

def outcome (chain : BlockHash → Except BlockTime.Error Moment) (hash : BlockHash)
    (answer : Option (Option Value)) : Except BlockTime.Error Moment :=
  match usable? answer with
  | some t => .ok t
  | none => chain hash

def Resolution.hash : Resolution → BlockHash
  | called hash | missed hash | found hash _ | returned hash _ => hash

/-- The steps that a caller has before it, at most. -/
def Resolution.left : Resolution → Nat
  | called _ => 3
  | missed _ => 2
  | found _ _ => 1
  | returned _ _ => 0

theorem Resolution.left_le (r : Resolution) : r.left ≤ 3 := by
  cases r <;> simp [left]

namespace Resolutions

inductive Note where
  /-- It read the entry of its block; an answer of `none` is a failed read. -/
  | read (caller : Nat) (hash : BlockHash) (answer : Option (Option Value))
  | lookedUp (caller : Nat) (hash : BlockHash)
  /-- It wrote the entry of its block, or failed to. -/
  | wrote (caller : Nat) (hash : BlockHash) (works : Bool)

def Note.caller : Note → Nat
  | read caller _ _ | lookedUp caller _ | wrote caller _ _ => caller

variable {chain : BlockHash → Except BlockTime.Error Moment} {cache : Table Value}
  {hashes : List BlockHash} {s v : Resolutions} {caller : Nat} {works : Bool} {ns : List Note}
  {steps : List (Nat × Bool)}

def answer (cache : Table Value) (hash : BlockHash) (works : Bool) : Option (Option Value) :=
  if works then some (cache.get? (key hash)) else none

theorem read_of_usable {hash : BlockHash} {t : Moment}
    (h : usable? (answer cache hash works) = some t) :
    read cache hash works = .returned hash (.ok t) := by
  simp only [answer] at h
  simp only [read, h]

theorem read_of_useless {hash : BlockHash} (h : usable? (answer cache hash works) = none) :
    read cache hash works = .missed hash := by
  simp only [answer] at h
  simp only [read, h]

def note (s : Resolutions) (a : Nat × Bool) : List Note :=
  match s.callers[a.1]? with
  | some (.called hash) => [.read a.1 hash (answer s.cache hash a.2)]
  | some (.missed hash) => [.lookedUp a.1 hash]
  | some (.found hash _) => [.wrote a.1 hash a.2]
  | _ => []

abbrev act? (chain : BlockHash → Except BlockTime.Error Moment) (s : Resolutions)
    (a : Nat × Bool) : Option Resolutions :=
  s.step? chain a.1 a.2

section Steps
variable {hash : BlockHash} {t : Moment}

theorem act_called (hc : s.callers[caller]? = some (.called hash)) :
    act? chain s (caller, works) =
      some { s with callers := s.callers.set caller (read s.cache hash works) } := by
  simp only [act?, step?, hc]

theorem act_missed (hc : s.callers[caller]? = some (.missed hash)) :
    act? chain s (caller, works) =
      some { s with callers := s.callers.set caller (answered hash (chain hash)) } := by
  simp only [act?, step?, hc]

theorem act_found (hc : s.callers[caller]? = some (.found hash t)) :
    act? chain s (caller, works) = some {
      cache := if works then s.cache.put (key hash) (toEntry t) else s.cache
      callers := s.callers.set caller (.returned hash (.ok t)) } := by
  simp only [act?, step?, hc]

/-- A caller reads the cache, or looks up its block, or writes to the cache. -/
theorem act_cases (h : act? chain s (caller, works) = some v) :
    (∃ hash, s.callers[caller]? = some (.called hash) ∧
      s.note (caller, works) = [.read caller hash (answer s.cache hash works)] ∧
      v = { s with callers := s.callers.set caller (read s.cache hash works) }) ∨
    (∃ hash, s.callers[caller]? = some (.missed hash) ∧
      s.note (caller, works) = [.lookedUp caller hash] ∧
      v = { s with callers := s.callers.set caller (answered hash (chain hash)) }) ∨
    ∃ hash t, s.callers[caller]? = some (.found hash t) ∧
      s.note (caller, works) = [.wrote caller hash works] ∧
      v = {
        cache := if works then s.cache.put (key hash) (toEntry t) else s.cache
        callers := s.callers.set caller (.returned hash (.ok t)) } := by
  simp only [act?, step?] at h
  split at h
  · rename_i hash hc
    exact .inl ⟨hash, hc, by simp [note, hc], (Option.some.inj h).symm⟩
  · rename_i hash hc
    exact .inr (.inl ⟨hash, hc, by simp [note, hc], (Option.some.inj h).symm⟩)
  · rename_i hash t hc
    exact .inr (.inr ⟨hash, t, hc, by simp [note, hc], (Option.some.inj h).symm⟩)
  · cases h

end Steps

section Callers

def Told (chain : BlockHash → Except BlockTime.Error Moment) (ns : List Note) (caller : Nat) :
    Resolution → Prop
  | .called _ => ∀ n ∈ ns, n.caller ≠ caller
  | .missed hash => ∃ answer, .read caller hash answer ∈ ns ∧ usable? answer = none
  | .found hash t =>
    chain hash = .ok t ∧ .lookedUp caller hash ∈ ns ∧
      ∃ answer, .read caller hash answer ∈ ns ∧ usable? answer = none
  | .returned hash result =>
    ∃ answer, .read caller hash answer ∈ ns ∧ result = outcome chain hash answer

theorem Told.append {r : Resolution} {n : Note} (h : Told chain ns caller r)
    (hn : n.caller ≠ caller) : Told chain (ns ++ [n]) caller r := by
  cases r with
  | called hash =>
    intro m hm
    rcases List.mem_append.mp hm with hm | hm
    · exact h m hm
    · exact List.mem_singleton.mp hm ▸ hn
  | missed hash =>
    obtain ⟨answer, hread, hnone⟩ := h
    exact ⟨answer, List.mem_append_left _ hread, hnone⟩
  | found hash t =>
    obtain ⟨hchain, hlooked, answer, hread, hnone⟩ := h
    exact ⟨hchain, List.mem_append_left _ hlooked, answer, List.mem_append_left _ hread, hnone⟩
  | returned hash result =>
    obtain ⟨answer, hread, hresult⟩ := h
    exact ⟨answer, List.mem_append_left _ hread, hresult⟩

/-- Callers read once, and ask the chain only if that was of no use. -/
structure Sparing (ns : List Note) : Prop where
  readOnce : ∀ caller hash hash' a a',
    .read caller hash a ∈ ns → .read caller hash' a' ∈ ns → a = a'
  lookedUp : ∀ caller hash, .lookedUp caller hash ∈ ns →
    ∃ answer, .read caller hash answer ∈ ns ∧ usable? answer = none

theorem Sparing.read {hash : BlockHash} {a : Option (Option Value)} (h : Sparing ns)
    (fresh : ∀ n ∈ ns, n.caller ≠ caller) : Sparing (ns ++ [.read caller hash a]) where
  readOnce other hash₁ hash₂ a₁ a₂ h₁ h₂ := by
    rcases List.mem_append.mp h₁ with h₁ | h₁ <;> rcases List.mem_append.mp h₂ with h₂ | h₂
    · exact h.readOnce other hash₁ hash₂ a₁ a₂ h₁ h₂
    · cases List.mem_singleton.mp h₂
      exact absurd rfl (fresh _ h₁)
    · cases List.mem_singleton.mp h₁
      exact absurd rfl (fresh _ h₂)
    · cases List.mem_singleton.mp h₁
      cases List.mem_singleton.mp h₂
      rfl
  lookedUp other hash' h' := by
    rcases List.mem_append.mp h' with h' | h'
    · obtain ⟨answer, hread, hnone⟩ := h.lookedUp other hash' h'
      exact ⟨answer, List.mem_append_left _ hread, hnone⟩
    · cases List.mem_singleton.mp h'

/-- A note that is not about a read. -/
theorem Sparing.other {n : Note} (h : Sparing ns) (hn : ∀ caller hash a, n ≠ .read caller hash a)
    (hlooked : ∀ caller hash, n = .lookedUp caller hash →
      ∃ answer, .read caller hash answer ∈ ns ∧ usable? answer = none) :
    Sparing (ns ++ [n]) where
  readOnce other hash₁ hash₂ a₁ a₂ h₁ h₂ := by
    rcases List.mem_append.mp h₁ with h₁ | h₁
    · rcases List.mem_append.mp h₂ with h₂ | h₂
      · exact h.readOnce other hash₁ hash₂ a₁ a₂ h₁ h₂
      · exact absurd (List.mem_singleton.mp h₂).symm (hn _ _ _)
    · exact absurd (List.mem_singleton.mp h₁).symm (hn _ _ _)
  lookedUp other hash h' := by
    have hread : ∃ answer, .read other hash answer ∈ ns ∧ usable? answer = none := by
      rcases List.mem_append.mp h' with h' | h'
      · exact h.lookedUp other hash h'
      · exact hlooked other hash (List.mem_singleton.mp h').symm
    obtain ⟨answer, hread, hnone⟩ := hread
    exact ⟨answer, List.mem_append_left _ hread, hnone⟩

/-- The callers are where their notes say, each with its own block. -/
structure Accounted (chain : BlockHash → Except BlockTime.Error Moment) (hashes : List BlockHash)
    (ns : List Note) (s : Resolutions) : Prop where
  hashes : s.callers.map Resolution.hash = hashes
  told : ∀ caller r, s.callers[caller]? = some r → Told chain ns caller r
  sparing : Sparing ns

theorem accounted_start (chain : BlockHash → Except BlockTime.Error Moment) (cache : Table Value)
    (hashes : List BlockHash) : Accounted chain hashes [] (start cache hashes) where
  hashes := by simp [start, Function.comp_def, Resolution.hash]
  told caller r hr := by
    rw [start, List.getElem?_map] at hr
    obtain ⟨hash, -, rfl⟩ := Option.map_eq_some_iff.mp hr
    exact nofun
  sparing := ⟨nofun, nofun⟩

theorem Accounted.found {hash : BlockHash} {t : Moment} (h : Accounted chain hashes ns s)
    (hc : s.callers[caller]? = some (.found hash t)) :
    chain hash = .ok t ∧ .lookedUp caller hash ∈ ns ∧
      ∃ answer, .read caller hash answer ∈ ns ∧ usable? answer = none :=
  h.told caller _ hc

/-- One caller goes on with its block. -/
theorem Accounted.go {old next : Resolution} {n : Note} (h : Accounted chain hashes ns s)
    (hold : s.callers[caller]? = some old) (hv : v.callers = s.callers.set caller next)
    (hhash : next.hash = old.hash) (hn : n.caller = caller)
    (hnext : Told chain (ns ++ [n]) caller next) (sparing : Sparing (ns ++ [n])) :
    Accounted chain hashes (ns ++ [n]) v where
  hashes := by
    obtain ⟨before, after, hcallers, hset⟩ := Run.exists_split hold next
    have hhashes := h.hashes
    rw [hcallers] at hhashes
    rw [hv, hset, ← hhashes]
    simp [hhash]
  told other r hr := by
    rw [hv, List.getElem?_set] at hr
    split at hr
    · rename_i heq
      subst heq
      split at hr
      · exact Option.some.inj hr ▸ hnext
      · cases hr
    · rename_i hne
      exact (h.told other r hr).append (hn ▸ hne)
  sparing := sparing

theorem Accounted.step (h : Accounted chain hashes ns s)
    (step : act? chain s (caller, works) = some v) :
    Accounted chain hashes (ns ++ s.note (caller, works)) v := by
  obtain ⟨hash, hc, hnote, rfl⟩ | ⟨hash, hc, hnote, rfl⟩ | ⟨hash, t, hc, hnote, rfl⟩ :=
    act_cases step
  · have hfresh : ∀ n ∈ ns, n.caller ≠ caller := h.told caller _ hc
    have hread : .read caller hash (answer s.cache hash works) ∈
        ns ++ [.read caller hash (answer s.cache hash works)] := by simp
    have hsparing : Sparing (ns ++ [.read caller hash (answer s.cache hash works)]) :=
      h.sparing.read hfresh
    rw [hnote]
    cases husable : usable? (answer s.cache hash works) with
    | none =>
      rw [read_of_useless husable]
      exact h.go hc rfl rfl rfl ⟨_, hread, husable⟩ hsparing
    | some t =>
      rw [read_of_usable husable]
      refine h.go hc rfl rfl rfl ⟨_, hread, ?_⟩ hsparing
      simp only [outcome, husable]
  · obtain ⟨answer, hread, hnone⟩ : ∃ answer, Note.read caller hash answer ∈ ns ∧
      usable? answer = none := h.told caller _ hc
    have hread' : .read caller hash answer ∈ ns ++ [Note.lookedUp caller hash] :=
      List.mem_append_left _ hread
    have hsparing : Sparing (ns ++ [.lookedUp caller hash]) := by
      refine h.sparing.other nofun fun other hash' heq => ?_
      cases heq
      exact ⟨answer, hread, hnone⟩
    rw [hnote]
    cases hchain : chain hash with
    | error e =>
      refine h.go hc rfl rfl rfl ⟨answer, hread', ?_⟩ hsparing
      simp only [outcome, hnone, hchain]
    | ok t => exact h.go hc rfl rfl rfl ⟨hchain, by simp, answer, hread', hnone⟩ hsparing
  · obtain ⟨hchain, -, answer, hread, hnone⟩ := h.found hc
    rw [hnote]
    refine h.go hc rfl rfl rfl ⟨answer, List.mem_append_left _ hread, ?_⟩ ?_
    · simp only [outcome, hnone, hchain]
    · exact h.sparing.other nofun nofun

end Callers

section Alone

/-- A caller that has not returned can go on, whether or not the cache works. -/
theorem exists_step (chain : BlockHash → Except BlockTime.Error Moment) {r : Resolution}
    (hc : s.callers[caller]? = some r) (busy : 0 < r.left) (works : Bool) :
    ∃ v next, act? chain s (caller, works) = some v ∧ v.callers[caller]? = some next ∧
      next.left < r.left := by
  have hlt : caller < s.callers.length := (List.getElem?_eq_some_iff.mp hc).1
  cases r with
  | called hash =>
    refine ⟨_, read s.cache hash works, act_called hc, List.getElem?_set_self hlt, ?_⟩
    rw [read]
    split
    · exact Nat.zero_lt_succ _
    · exact Nat.lt_succ_self _
  | missed hash =>
    refine ⟨_, answered hash (chain hash), act_missed hc, List.getElem?_set_self hlt, ?_⟩
    cases chain hash with
    | error e => exact Nat.zero_lt_succ _
    | ok t => exact Nat.lt_succ_self _
  | found hash t =>
    exact ⟨_, _, act_found hc, List.getElem?_set_self hlt, Nat.zero_lt_one⟩
  | returned hash result => cases busy

/-- A caller returns within the steps that are left to it. -/
theorem comes_to_return {r : Resolution} {flags : List Bool} (hc : s.callers[caller]? = some r)
    (enough : r.left ≤ flags.length) :
    ∃ n v hash result,
      Run (act? chain) Anything s ((flags.take n).map (caller, ·)) v ∧
      v.callers[caller]? = some (.returned hash result) := by
  induction flags generalizing s r with
  | nil =>
    cases r with
    | returned hash result => exact ⟨0, s, hash, result, .nil s, hc⟩
    | called | missed | found => cases enough
  | cons works flags ih =>
    rcases Nat.eq_zero_or_pos r.left with hdone | hbusy
    · cases r with
      | returned hash result => exact ⟨0, s, hash, result, .nil s, hc⟩
      | called | missed | found => cases hdone
    · obtain ⟨v, next, hstep, hnext, hless⟩ := exists_step chain hc hbusy works
      obtain ⟨n, u, hash, result, hrun, hresult⟩ :=
        ih hnext (Nat.le_of_lt_succ (Nat.lt_of_lt_of_le hless enough))
      exact ⟨n + 1, u, hash, result, .cons trivial hstep hrun, hresult⟩

def around (chain : BlockHash → Except BlockTime.Error Moment) (reads writes : Bool) :
    Surroundings (StateM (Table Value)) where
  cached k := do
    let cache ← get
    return if reads then some (cache.get? k) else none
  lookUp hash := pure (chain hash)
  remember k value := do
    if writes then modify (·.put k value)
    return writes

theorem run_resolve (chain : BlockHash → Except BlockTime.Error Moment) (cache : Table Value)
    (hash : BlockHash) (reads writes : Bool) :
    (resolve (around chain reads writes) hash).run cache =
      match usable? (answer cache hash reads) with
      | some t => (.ok t, cache)
      | none =>
        match chain hash with
        | .error e => (.error e, cache)
        | .ok t => (.ok t, if writes then cache.put (key hash) (toEntry t) else cache) := by
  have hcached : ((around chain reads writes).cached (key hash)).run cache =
      pure (answer cache hash reads, cache) := rfl
  have hlooked : ((around chain reads writes).lookUp hash).run cache =
      pure (chain hash, cache) := rfl
  have hwritten (t : Moment) :
      ((around chain reads writes).remember (key hash) (toEntry t)).run cache =
        pure (writes, if writes then cache.put (key hash) (toEntry t) else cache) := by
    cases writes <;> rfl
  rw [resolve, StateT.run_bind, hcached, pure_bind]
  cases usable? (answer cache hash reads) with
  | some t => rfl
  | none =>
    dsimp only
    rw [StateT.run_bind, hlooked, pure_bind]
    cases chain hash with
    | error e => rfl
    | ok t =>
      dsimp only
      rw [StateT.run_bind, hwritten, pure_bind]
      rfl

/-- On its own, a caller does what `resolve` does. -/
theorem resolve_alone (chain : BlockHash → Except BlockTime.Error Moment) (cache : Table Value)
    (hash : BlockHash) (reads writes : Bool) :
    let (result, now) := (resolve (around chain reads writes) hash).run cache
    ∃ n, Run (act? chain) Anything (start cache [hash])
      ([(0, reads), (0, true), (0, writes)].take n) ⟨now, [.returned hash result]⟩ := by
  have hread : act? chain (start cache [hash]) (0, reads) =
      some ⟨cache, [read cache hash reads]⟩ := rfl
  have hlooked : act? chain ⟨cache, [.missed hash]⟩ (0, true) =
      some ⟨cache, [answered hash (chain hash)]⟩ := rfl
  rw [run_resolve]
  cases husable : usable? (answer cache hash reads) with
  | some t =>
    rw [read_of_usable husable] at hread
    exact ⟨1, .single trivial hread⟩
  | none =>
    rw [read_of_useless husable] at hread
    cases hchain : chain hash with
    | error e =>
      rw [hchain] at hlooked
      exact ⟨2, .cons trivial hread (.single trivial hlooked)⟩
    | ok t =>
      rw [hchain] at hlooked
      exact ⟨3, .cons trivial hread (.cons trivial hlooked (.single trivial rfl))⟩

end Alone

end Resolutions
end TokenWatch.BlockTime
