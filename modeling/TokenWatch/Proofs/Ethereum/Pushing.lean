import TokenWatch.Proofs.Ethereum.Carrying
import TokenWatch.Proofs.Ethereum.Requests

/-!
Which of the logs that are handled one after the other are pushed, what is asked for each of them,
and what the others see of it.
-/
namespace TokenWatch.Ethereum
open Time Handler

/-- A log, with the cache, the chain and the sink as they are when it is handled. -/
structure Occasion (σ : Type) where
  log : Log
  around : Surroundings (StateM σ)

namespace Occasion

variable {σ : Type} {o : Occasion σ} {os before after : List (Occasion σ)} {s u v : Asked σ}
  {world : σ} {rs : List Request}

def handle (o : Occasion σ) : StateM (Asked σ) (Except Error (Option Event)) :=
  Handler.handle o.around.asked o.log

def handleAll (os : List (Occasion σ)) : StateM (Asked σ) (List (Except Error (Option Event))) :=
  os.mapM handle

/-- The time of the log's block becomes known. -/
def Resolves (o : Occasion σ) (world : σ) : Prop :=
  ∃ hash time, o.log.blockHash = some hash ∧
    (BlockTime.resolve o.around.toSurroundings hash world).1 = .ok time

section Single

/-- What is asked for one log, and what it leaves. -/
structure Settled (o : Occasion σ) (u v : Asked σ) (rs : List Request) : Prop where
  requests : v.requests = u.requests ++ rs
  pushed : (∃ e, .push e ∈ rs) ↔ o.log.Qualifies ∧ o.Resolves u.world
  pushedOnce : rs.countP Request.isPush ≤ 1
  lookedUpOnce : rs.countP Request.isLookUp ≤ 1
  carried : ∀ e, .push e ∈ rs → ∃ t hash txHash, LoggedTransfer.ofLog o.log = .ok (some t) ∧
    o.log.blockHash = some hash ∧ o.log.txHash = some txHash ∧
    t.CarriedBy txHash o.log.index e ∧
    (BlockTime.resolve o.around.toSurroundings hash u.world).1 = .ok e.time
  unqualified : ¬o.log.Qualifies → rs = [] ∧ v = u
  unresolved : o.log.Qualifies → ¬o.Resolves u.world → ∃ hash, o.log.blockHash = some hash ∧
    rs = [.read (BlockTime.key hash), .lookUp hash] ∧
    v.world = (o.around.lookUp hash (o.around.cached (BlockTime.key hash) u.world).2).2

variable {p : Placed}

theorem qualifies_of_placed (h : place o.log = .ok (some p)) : o.log.Qualifies :=
  exists_place_iff.mp ⟨p, h⟩

theorem resolves_iff_of_placed (h : place o.log = .ok (some p)) :
    o.Resolves world ↔
      ∃ time, (BlockTime.resolve o.around.toSurroundings p.blockHash world).1 = .ok time := by
  obtain ⟨hblock, -⟩ := fields_of_place h
  constructor
  · rintro ⟨hash, time, hhash, htime⟩
    obtain rfl : p.blockHash = hash := Option.some.inj (hblock.symm.trans hhash)
    exact ⟨time, htime⟩
  · rintro ⟨time, htime⟩
    exact ⟨p.blockHash, time, hblock, htime⟩

theorem settled_of_unplaced (h : ∀ p, place o.log ≠ .ok (some p)) (u : Asked σ) :
    o.Settled u u [] := by
  have hnot : ¬o.log.Qualifies := fun hqualifies => by
    obtain ⟨p, hp⟩ := exists_place_iff.mpr hqualifies
    exact h p hp
  exact {
    requests := (List.append_nil _).symm
    pushed := ⟨fun ⟨_, he⟩ => (nomatch he), fun ⟨hqualifies, _⟩ => absurd hqualifies hnot⟩
    pushedOnce := Nat.zero_le 1
    lookedUpOnce := Nat.zero_le 1
    carried := nofun
    unqualified := fun _ => ⟨rfl, rfl⟩
    unresolved := fun hqualifies => absurd hqualifies hnot }

theorem settled_of_unresolved {e : BlockTime.Error} (placed : place o.log = .ok (some p))
    (unknown : (BlockTime.resolve o.around.toSurroundings p.blockHash u.world).1 = .error e) :
    o.Settled u ⟨(BlockTime.resolve o.around.toSurroundings p.blockHash u.world).2,
      u.requests ++ [.read (BlockTime.key p.blockHash), .lookUp p.blockHash]⟩
      [.read (BlockTime.key p.blockHash), .lookUp p.blockHash] := by
  have hnot : ¬o.Resolves u.world := by
    rw [resolves_iff_of_placed placed, unknown]
    exact nofun
  have hsilent : ∀ e, .push e ∉ [Request.read (BlockTime.key p.blockHash), .lookUp p.blockHash] :=
    (Resolving.unknown e).not_push
  obtain ⟨hblock, -⟩ := fields_of_place placed
  exact {
    requests := rfl
    pushed := ⟨fun ⟨e, he⟩ => absurd he (hsilent e), fun ⟨_, hresolves⟩ => absurd hresolves hnot⟩
    pushedOnce := Nat.zero_le 1
    lookedUpOnce := Nat.le_refl 1
    carried := fun e he => absurd he (hsilent e)
    unqualified := fun h => absurd (qualifies_of_placed placed) h
    unresolved := fun _ _ => ⟨p.blockHash, hblock, rfl, BlockTime.world_of_error unknown⟩ }

theorem settled_of_pushed {time : Moment} (placed : place o.log = .ok (some p))
    (known : (BlockTime.resolve o.around.toSurroundings p.blockHash u.world).1 = .ok time)
    (resolving : Resolving p.blockHash (.ok time) rs) (w : σ) :
    o.Settled u ⟨w, u.requests ++ (rs ++ [.push (p.event time)])⟩
      (rs ++ [.push (p.event time)]) := by
  have hqualifies := qualifies_of_placed placed
  have hresolves : o.Resolves u.world := (resolves_iff_of_placed placed).mpr ⟨time, known⟩
  obtain ⟨hlookedUp, hsilent⟩ := resolving.counts
  obtain ⟨hblock, htx, -⟩ := fields_of_place placed
  have hevent : ∀ e, .push e ∈ rs ++ [Request.push (p.event time)] → e = p.event time := by
    intro e he
    rcases List.mem_append.mp he with he | he
    · exact absurd he (resolving.not_push e)
    · exact Request.push.inj (List.mem_singleton.mp he)
  exact {
    requests := rfl
    pushed := ⟨fun _ => ⟨hqualifies, hresolves⟩,
      fun _ => ⟨p.event time, List.mem_append_right _ (List.mem_singleton_self _)⟩⟩
    pushedOnce := by
      rw [List.countP_append, hsilent]
      exact Nat.le_refl 1
    lookedUpOnce := by
      rw [List.countP_append]
      exact hlookedUp
    carried := fun e he => by
      rw [hevent e he]
      exact ⟨p.transfer, p.blockHash, p.txHash, of_place placed, hblock, htx,
        Placed.carriedBy placed time, known⟩
    unqualified := fun h => absurd hqualifies h
    unresolved := fun _ h => absurd hresolves h }

theorem exists_settled (o : Occasion σ) (u : Asked σ) : ∃ rs, o.Settled u (o.handle u).2 rs := by
  obtain ⟨rs, handling, hasks⟩ := exists_handling o.around o.log u
  have hv : (o.handle u).2 = ⟨(Handler.handle o.around o.log u.world).2, u.requests ++ rs⟩ :=
    congrArg Prod.snd hasks
  refine ⟨rs, ?_⟩
  rw [hv]
  cases handling with
  | unplaced h =>
    obtain ⟨r, hr⟩ := handle_of_unplaced h
    rw [hr, List.append_nil]
    exact settled_of_unplaced h u
  | @unresolved p e placed unknown =>
    have hplain := handle_of_unresolved placed (Prod.ext unknown rfl)
    rw [hplain]
    exact settled_of_unresolved placed unknown
  | @pushed p time rs placed known resolving => exact settled_of_pushed placed known resolving _

end Single

section Sequence

theorem handleAll_append (before after : List (Occasion σ)) (s : Asked σ) :
    handleAll (before ++ after) s =
      ((handleAll before s).1 ++ (handleAll after (handleAll before s).2).1,
        (handleAll after (handleAll before s).2).2) := by
  rw [handleAll, List.mapM_append]
  rfl

theorem handleAll_cons (o : Occasion σ) (after : List (Occasion σ)) (s : Asked σ) :
    handleAll (o :: after) s =
      ((o.handle s).1 :: (handleAll after (o.handle s).2).1,
        (handleAll after (o.handle s).2).2) := by
  rw [handleAll, List.mapM_cons]
  rfl

/-- The record changes nothing. -/
theorem exists_asks_handleAll (os : List (Occasion σ)) (s : Asked σ) :
    ∃ rs, Asks s (handleAll os) (os.mapM fun o => Handler.handle o.around o.log) rs := by
  induction os generalizing s with
  | nil => exact ⟨[], by rw [Asks, List.append_nil]; rfl⟩
  | cons o os ih =>
    obtain ⟨rs, -, hfirst⟩ := exists_handling o.around o.log s
    have ho : o.handle s = ((Handler.handle o.around o.log s.world).1,
      ⟨(Handler.handle o.around o.log s.world).2, s.requests ++ rs⟩) := hfirst
    obtain ⟨rs', hrest⟩ := ih (o.handle s).2
    refine ⟨rs ++ rs', ?_⟩
    rw [Asks] at hrest ⊢
    rw [handleAll_cons, hrest, ho, List.mapM_cons, List.append_assoc]
    rfl

/-- What comes of logs depends on the world alone. -/
theorem handleAll_congr (os : List (Occasion σ)) (h : u.world = v.world) :
    (handleAll os u).1 = (handleAll os v).1 := by
  obtain ⟨rs, hu⟩ := exists_asks_handleAll os u
  obtain ⟨rs', hv⟩ := exists_asks_handleAll os v
  rw [Asks] at hu hv
  rw [hu, hv, h]

end Sequence

/-- Logs that are handled one after the other, each with a cache, a chain and a sink that answer as
they like. A log is pushed exactly if it has four topics, one of the two signatures first and with
the second of them a word of data, both hashes, and a block whose time becomes known. It is pushed
once at most and its block looked up once at most; the event carries what the log says, at that
time. For a log that lacks something nothing is asked at all, and the others are handled as without
it. For one whose block's time stays unknown the cache is read and the block looked up and nothing
else: where a look-up changes nothing, the others come to what they do after that read alone. A log
of either layout is read back as the transfer that it was made for, whatever else stands in it, and
an event carries no two transfers. All logs of transfers are subscribed to. -/
theorem logs_pushed_exactly {σ : Type} :
    (∀ (before after : List (Occasion σ)) (o : Occasion σ) (s : Asked σ),
      let u := (handleAll before s).2
      let v := (o.handle u).2
      handleAll (before ++ o :: after) s =
        ((handleAll before s).1 ++ (o.handle u).1 :: (handleAll after v).1, (handleAll after v).2) ∧
      (∃ rs, o.Settled u v rs) ∧
      (¬o.log.Qualifies → handleAll (before ++ after) s =
        ((handleAll before s).1 ++ (handleAll after v).1, (handleAll after v).2)) ∧
      (o.log.Qualifies → ¬o.Resolves u.world →
        (∀ hash world, (o.around.lookUp hash world).2 = world) →
        ∃ hash, o.log.blockHash = some hash ∧ (handleAll after v).1 = (handleAll after { u with
          world := (o.around.cached (BlockTime.key hash) u.world).2 }).1)) ∧
    (∀ (os : List (Occasion σ)) s,
      ∃ rs, Asks s (handleAll os) (os.mapM fun o => Handler.handle o.around o.log) rs) ∧
    (∀ contract source target id operator data trailing blockHash txHash index,
      LoggedTransfer.ofLog ⟨contract,
        [Standard.signature .erc721, Word.ofAddress source, Word.ofAddress target, id], data,
        blockHash, txHash, index⟩ = .ok (some ⟨.erc721, contract, source, target, id⟩) ∧
      LoggedTransfer.ofLog ⟨contract,
        [Standard.signature .erc1155, operator, Word.ofAddress source, Word.ofAddress target],
        id.bytes ++ trailing, blockHash, txHash, index⟩ =
          .ok (some ⟨.erc1155, contract, source, target, id⟩)) ∧
    (∀ (t u : LoggedTransfer) txHash txHash' index index' e, t.CarriedBy txHash index e →
      u.CarriedBy txHash' index' e →
      (t.contract, t.source, t.target, t.tokenId) = (u.contract, u.source, u.target, u.tokenId)) ∧
    ∀ log t, LoggedTransfer.ofLog log = .ok (some t) → LogFilter.transfers.Admits log := by
  refine ⟨fun before after o s => ?_, exists_asks_handleAll, ?_,
    fun t u _ _ _ _ e => LoggedTransfer.CarriedBy.unique,
    fun log t => LoggedTransfer.admits_of_ofLog⟩
  · intro u v
    obtain ⟨rs, settled⟩ : ∃ rs, o.Settled u v rs := exists_settled o u
    refine ⟨?_, ⟨rs, settled⟩, fun h => ?_, fun hqualifies h calm => ?_⟩
    · rw [handleAll_append, handleAll_cons]
    · rw [handleAll_append, (settled.unqualified h).2]
    · obtain ⟨hash, hblock, -, hworld⟩ := settled.unresolved hqualifies h
      exact ⟨hash, hblock, handleAll_congr after (hworld.trans (calm hash _))⟩
  · intro contract source target id operator data trailing blockHash txHash index
    exact ⟨LoggedTransfer.ofLog_topics contract source target id data blockHash txHash index,
      LoggedTransfer.ofLog_data contract source target operator id trailing blockHash txHash index⟩

/-- A log without its word of data is passed over, and the one after it is pushed as a mint. -/
theorem logs_pushed_exactly_mint :
    let time : Moment := ⟨⟨1970, 1, 1, by decide⟩, .ofSeconds 0, 0, by decide⟩
    let around : Surroundings (StateM Unit) :=
      { cached := fun _ => pure none, lookUp := fun _ => pure (.ok time)
        remember := fun _ _ => pure false, push := fun _ => pure (.error (.rejected 400)) }
    let short : Log := ⟨7, [Standard.signature .erc1155, 0, 0, 9], [], some 1, some 2, none⟩
    let mint : Log := ⟨7, [Standard.signature .erc721, Word.ofAddress 0, Word.ofAddress 9, 42], [],
      some 1, some 2, some 5⟩
    let u := (handleAll [⟨short, around⟩] ⟨(), []⟩).2
    u.requests = [] ∧ ∃ rs e, Settled ⟨mint, around⟩ u (handle ⟨mint, around⟩ u).2 rs ∧
      .push e ∈ rs ∧ e.kind = .mint ∧ e.tokenId.toNat = 42 ∧ e.index = 5 ∧ e.time = time := by
  intro time around short mint u
  obtain ⟨hruns, -, hread, -⟩ := @logs_pushed_exactly Unit
  obtain ⟨-, ⟨rs, settled⟩, -⟩ := hruns [⟨short, around⟩] [] ⟨mint, around⟩ ⟨(), []⟩
  obtain ⟨-, ⟨rs', settled'⟩, -⟩ := hruns [] [] ⟨short, around⟩ ⟨(), []⟩
  have hnot : ¬short.Qualifies := by
    rintro ⟨-, hsignature | ⟨-, hlong⟩, -, -⟩
    · exact absurd hsignature (by decide)
    · exact absurd hlong (by decide)
  obtain ⟨-, hsame⟩ := settled'.unqualified hnot
  have hqualifies : mint.Qualifies := ⟨rfl, .inl rfl, rfl, rfl⟩
  obtain ⟨e, he⟩ := settled.pushed.mpr ⟨hqualifies, 1, time, rfl, rfl⟩
  obtain ⟨t, hash, txHash, ht, hhash, htx, carried, htime⟩ := settled.carried e he
  cases ht.symm.trans (hread 7 0 9 42 0 [] [] (some 1) (some 2) (some 5)).1
  cases hhash
  have htime : time = e.time := Except.ok.inj htime
  exact ⟨congrArg Asked.requests hsame, rs, e, settled, he, carried.mint.mpr rfl, carried.tokenId,
    carried.index, htime.symm⟩

end Occasion
end TokenWatch.Ethereum
