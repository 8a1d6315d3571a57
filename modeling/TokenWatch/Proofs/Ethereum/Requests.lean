import TokenWatch.Proofs.Ethereum.Placing

/-!
What the handling of a log asks of the cache, the chain and the sink, and in which order.
-/
namespace TokenWatch

namespace BlockTime
open Time Json

variable {σ : Type} {around : Surroundings (StateM σ)} {hash : BlockHash} {world : σ} {t : Moment}
  {e : BlockTime.Error}

theorem resolve_of_usable (h : usable? (around.cached (key hash) world).1 = some t) :
    resolve around hash world = (.ok t, (around.cached (key hash) world).2) := by
  rw [resolve, Run.bind_state, h]
  rfl

theorem resolve_of_error (useless : usable? (around.cached (key hash) world).1 = none)
    (h : (around.lookUp hash (around.cached (key hash) world).2).1 = .error e) :
    resolve around hash world =
      (.error e, (around.lookUp hash (around.cached (key hash) world).2).2) := by
  rw [resolve, Run.bind_state, useless]
  simp only [Run.bind_state, h]
  rfl

theorem resolve_of_ok (useless : usable? (around.cached (key hash) world).1 = none)
    (h : (around.lookUp hash (around.cached (key hash) world).2).1 = .ok t) :
    resolve around hash world = (.ok t, (around.remember (key hash) (toEntry t)
      (around.lookUp hash (around.cached (key hash) world).2).2).2) := by
  rw [resolve, Run.bind_state, useless]
  simp only [Run.bind_state, h]
  rfl

/-- A block whose time does not become known leaves no more than a read and a look-up. -/
theorem world_of_error (h : (resolve around hash world).1 = .error e) :
    (resolve around hash world).2 =
      (around.lookUp hash (around.cached (key hash) world).2).2 := by
  cases hentry : usable? (around.cached (key hash) world).1 with
  | some t =>
    rw [resolve_of_usable hentry] at h
    cases h
  | none =>
    cases hanswer : (around.lookUp hash (around.cached (key hash) world).2).1 with
    | error e' => rw [resolve_of_error hentry hanswer]
    | ok t =>
      rw [resolve_of_ok hentry hanswer] at h
      cases h

end BlockTime

namespace Ethereum.Handler
open Time Json

inductive Request where
  | read (key : String)
  | lookUp (hash : BlockHash)
  | write (key : String) (entry : Value)
  | push (e : Event)

namespace Request

def isLookUp : Request → Bool
  | lookUp _ => true
  | _ => false

def isPush : Request → Bool
  | push _ => true
  | _ => false

end Request

structure Asked (σ : Type) where
  world : σ
  requests : List Request

variable {σ α : Type} {around : Surroundings (StateM σ)} {log : Log} {hash : BlockHash}
  {p : Placed} {time : Moment} {rs : List Request} {s : Asked σ} {world after : σ}

section Asking

def ask (r : Request) (x : StateM σ α) : StateM (Asked σ) α := fun s =>
  ((x s.world).1, ⟨(x s.world).2, s.requests ++ [r]⟩)

def Surroundings.asked (around : Surroundings (StateM σ)) : Surroundings (StateM (Asked σ)) where
  cached key := ask (.read key) (around.cached key)
  lookUp hash := ask (.lookUp hash) (around.lookUp hash)
  remember key entry := ask (.write key entry) (around.remember key entry)
  push e := ask (.push e) (around.push e)

/-- One computation does, with a record of requests, what another does without. -/
def Asks (s : Asked σ) (x : StateM (Asked σ) α) (y : StateM σ α) (rs : List Request) : Prop :=
  x s = ((y s.world).1, ⟨(y s.world).2, s.requests ++ rs⟩)

end Asking

section Resolving

inductive Resolving (hash : BlockHash) : Except BlockTime.Error Moment → List Request → Prop where
  | cached (t : Moment) : Resolving hash (.ok t) [.read (BlockTime.key hash)]
  | unknown (e : BlockTime.Error) :
      Resolving hash (.error e) [.read (BlockTime.key hash), .lookUp hash]
  | found (t : Moment) :
      Resolving hash (.ok t) [.read (BlockTime.key hash), .lookUp hash,
        .write (BlockTime.key hash) (BlockTime.toEntry t)]

theorem exists_resolving (around : Surroundings (StateM σ)) (hash : BlockHash) (s : Asked σ) :
    ∃ rs, Resolving hash (BlockTime.resolve around.toSurroundings hash s.world).1 rs ∧
      Asks s (BlockTime.resolve around.asked.toSurroundings hash)
        (BlockTime.resolve around.toSurroundings hash) rs := by
  let key := BlockTime.key hash
  cases hentry : BlockTime.usable? (around.cached key s.world).1 with
  | some t =>
    have hplain := BlockTime.resolve_of_usable hentry
    have hasked := @BlockTime.resolve_of_usable _ around.asked.toSurroundings _ s _ hentry
    refine ⟨[.read key], hplain ▸ .cached t, ?_⟩
    rw [Asks, hplain, hasked]
    rfl
  | none =>
    cases hanswer : (around.lookUp hash (around.cached key s.world).2).1 with
    | error e =>
      have hplain := BlockTime.resolve_of_error hentry hanswer
      have hasked := @BlockTime.resolve_of_error _ around.asked.toSurroundings _ s _ hentry hanswer
      refine ⟨[.read key, .lookUp hash], hplain ▸ .unknown e, ?_⟩
      rw [Asks, hplain, hasked, List.append_cons]
      rfl
    | ok t =>
      have hplain := BlockTime.resolve_of_ok hentry hanswer
      have hasked := @BlockTime.resolve_of_ok _ around.asked.toSurroundings _ s _ hentry hanswer
      refine ⟨[.read key, .lookUp hash, .write key (BlockTime.toEntry t)], hplain ▸ .found t, ?_⟩
      rw [Asks, hplain, hasked, List.append_cons, List.append_cons _ (Request.lookUp hash)]
      rfl

theorem Resolving.counts {result : Except BlockTime.Error Moment} (h : Resolving hash result rs) :
    rs.countP Request.isLookUp ≤ 1 ∧ rs.countP Request.isPush = 0 := by
  cases h with
  | cached t => exact ⟨Nat.zero_le 1, rfl⟩
  | unknown e => exact ⟨Nat.le_refl 1, rfl⟩
  | found t => exact ⟨Nat.le_refl 1, rfl⟩

theorem Resolving.not_push {result : Except BlockTime.Error Moment} (h : Resolving hash result rs)
    (e : Event) : .push e ∉ rs := by
  intro hmem
  have hcount := List.countP_pos_iff.mpr ⟨_, hmem, (rfl : Request.isPush (.push e) = true)⟩
  rw [h.counts.2] at hcount
  exact Nat.lt_irrefl 0 hcount

end Resolving

section Handling

inductive Handling (log : Log) (resolved : BlockHash → Except BlockTime.Error Moment) :
    List Request → Prop where
  | unplaced (h : ∀ p, place log ≠ .ok (some p)) : Handling log resolved []
  | unresolved {p : Placed} {e : BlockTime.Error} (placed : place log = .ok (some p))
      (unknown : resolved p.blockHash = .error e) :
      Handling log resolved [.read (BlockTime.key p.blockHash), .lookUp p.blockHash]
  | pushed {p : Placed} {time : Moment} {rs : List Request} (placed : place log = .ok (some p))
      (known : resolved p.blockHash = .ok time) (resolving : Resolving p.blockHash (.ok time) rs) :
      Handling log resolved (rs ++ [.push (p.event time)])

theorem handle_of_unplaced (h : ∀ p, place log ≠ .ok (some p)) :
    ∃ r, ∀ {m : Type → Type} [Monad m] (around : Surroundings m), handle around log = pure r := by
  cases hplace : place log with
  | error e => exact ⟨_, fun around => handle_of_error hplace⟩
  | ok placed =>
    cases placed with
    | none => exact ⟨_, fun around => handle_of_none hplace⟩
    | some p => exact absurd hplace (h p)

theorem handle_of_unresolved {e : BlockTime.Error} (placed : place log = .ok (some p))
    (h : BlockTime.resolve around.toSurroundings p.blockHash world = (.error e, after)) :
    handle around log world = (.error (.blockTime e), after) := by
  rw [handle_of_placed placed, Run.bind_state, h]
  rfl

def outcome (e : Event) : PushResult → Except Error (Option Event)
  | .error cause => .error (.emit cause)
  | .ok () => .ok (some e)

theorem handle_of_resolved (placed : place log = .ok (some p))
    (h : BlockTime.resolve around.toSurroundings p.blockHash world = (.ok time, after)) :
    handle around log world =
      (outcome (p.event time) (around.push (p.event time) after).1,
        (around.push (p.event time) after).2) := by
  rw [handle_of_placed placed, Run.bind_state, h]
  simp only [Run.bind_state]
  cases (around.push (p.event time) after).1 with
  | error cause => rfl
  | ok _ => rfl

theorem exists_handling (around : Surroundings (StateM σ)) (log : Log) (s : Asked σ) :
    ∃ rs, Handling log
        (fun hash => (BlockTime.resolve around.toSurroundings hash s.world).1) rs ∧
      Asks s (handle around.asked log) (handle around log) rs := by
  by_cases hplaced : ∃ p, place log = .ok (some p)
  · obtain ⟨p, placed⟩ := hplaced
    obtain ⟨rs, resolving, hasks⟩ := exists_resolving around p.blockHash s
    cases hplain : BlockTime.resolve around.toSurroundings p.blockHash s.world with
    | mk result after =>
      rw [Asks, hplain] at hasks
      rw [hplain] at resolving
      cases result with
      | error e =>
        refine ⟨rs, ?_, ?_⟩
        · cases resolving
          exact .unresolved placed (congrArg Prod.fst hplain)
        · rw [Asks, handle_of_unresolved placed hplain, handle_of_unresolved placed hasks]
      | ok time =>
        refine ⟨rs ++ [.push (p.event time)],
          .pushed placed (congrArg Prod.fst hplain) resolving, ?_⟩
        rw [Asks, handle_of_resolved placed hplain, handle_of_resolved placed hasks,
          ← List.append_assoc]
        rfl
  · have hnone : ∀ p, place log ≠ .ok (some p) := not_exists.mp hplaced
    obtain ⟨r, hr⟩ := handle_of_unplaced hnone
    refine ⟨[], .unplaced hnone, ?_⟩
    rw [Asks, hr, hr, List.append_nil]
    rfl

end Handling

end Ethereum.Handler
end TokenWatch
