import Mathlib.Data.Nat.Digits.Defs
import TokenWatch.Ethereum.Handler
import TokenWatch.Proofs.Event.TokenId
import TokenWatch.Proofs.Run

/-!
The shapes of the logs that are transfers of one token, what is read from them, and the events that
are made from it.
-/
namespace TokenWatch.Ethereum
open Time

variable {log : Log} {n : Nat}

namespace Word

theorem natOfBytes_eq (bytes : List UInt8) :
    natOfBytes bytes = Nat.ofDigits 256 (bytes.reverse.map UInt8.toNat) := by
  have hgeneral : ∀ acc, bytes.foldl (fun n b => 256 * n + b.toNat) acc =
      256 ^ bytes.length * acc + Nat.ofDigits 256 (bytes.reverse.map UInt8.toNat) := by
    induction bytes with
    | nil => simp
    | cons b bytes ih =>
      intro acc
      rw [List.foldl_cons, ih]
      simp only [List.reverse_cons, List.map_append, Nat.ofDigits_append, List.length_map,
        List.length_reverse, List.map_cons, List.map_nil, Nat.ofDigits_singleton, List.length_cons,
        Nat.pow_succ]
      ring
  rw [natOfBytes, hgeneral, Nat.mul_zero, Nat.zero_add]

/-- As many bytes as a word has are all in it. -/
theorem toNat_ofBytes {bytes : List UInt8} (h : bytes.length = 32) :
    (ofBytes bytes).toNat = Nat.ofDigits 256 (bytes.reverse.map UInt8.toNat) := by
  have hsmall : ∀ d ∈ bytes.reverse.map UInt8.toNat, d < 256 := by
    intro d hd
    obtain ⟨b, -, rfl⟩ := List.mem_map.mp hd
    exact b.toNat_lt
  have hlt := Nat.ofDigits_lt_base_pow_length (by decide) hsmall
  rw [List.length_map, List.length_reverse, h] at hlt
  rw [ofBytes, BitVec.toNat_ofNat, natOfBytes_eq]
  exact Nat.mod_eq_of_lt hlt

end Word

namespace Log

/-- The words that hold the source and the target of a log's transfer. -/
inductive Moves (log : Log) : Word → Word → Prop where
  | erc721 {source target id : Word}
      (topics : log.topics = [Standard.signature .erc721, source, target, id]) :
      Moves log source target
  | erc1155 {operator source target : Word}
      (topics : log.topics = [Standard.signature .erc1155, operator, source, target]) :
      Moves log source target

/-- The number of the token that a log is about: a topic, or the first bytes of the data. -/
inductive Numbers (log : Log) : Nat → Prop where
  | topic {source target id : Word}
      (topics : log.topics = [Standard.signature .erc721, source, target, id]) :
      Numbers log id.toNat
  | data {operator source target : Word}
      (topics : log.topics = [Standard.signature .erc1155, operator, source, target])
      (long : 32 ≤ log.data.length) :
      Numbers log (Nat.ofDigits 256 ((log.data.take 32).reverse.map UInt8.toNat))

end Log

namespace LoggedTransfer

variable {t : LoggedTransfer}

theorem ofLog_erc721 {source target id : Word}
    (topics : log.topics = [Standard.signature .erc721, source, target, id]) :
    ofLog log =
      .ok (some ⟨.erc721, log.address, source.toAddress, target.toAddress, id⟩) := by
  simp [ofLog, topics]

theorem ofLog_erc1155 {operator source target : Word}
    (topics : log.topics = [Standard.signature .erc1155, operator, source, target])
    (long : 32 ≤ log.data.length) :
    ofLog log = .ok (some ⟨.erc1155, log.address, source.toAddress, target.toAddress,
      Word.ofBytes (log.data.take 32)⟩) := by
  have hother : Standard.signature .erc1155 ≠ Standard.signature .erc721 := by decide
  simp [ofLog, topics, hother, Nat.not_lt.mpr long]

/-- What is read from a log stands in it. -/
theorem of_ofLog (h : ofLog log = .ok (some t)) :
    t.contract = log.address ∧
      (∃ source target, log.Moves source target ∧ t.source = source.toAddress ∧
        t.target = target.toAddress) ∧
      log.Numbers t.tokenId.toNat := by
  unfold ofLog at h
  split at h
  · rename_i signature a b c htopics
    split at h
    · rename_i hsignature
      subst hsignature
      cases h
      exact ⟨rfl, ⟨a, b, .erc721 htopics, rfl, rfl⟩, .topic htopics⟩
    · split at h
      · rename_i hsignature
        subst hsignature
        split at h
        · cases h
        · rename_i hlong
          cases h
          have hlength : (log.data.take 32).length = 32 :=
            List.length_take_of_le (Nat.not_lt.mp hlong)
          refine ⟨rfl, ⟨b, c, .erc1155 htopics, rfl, rfl⟩, ?_⟩
          rw [Word.toNat_ofBytes hlength]
          exact .data htopics (Nat.not_lt.mp hlong)
      · cases h
  · cases h

/-- A log that numbers a token is a transfer of that token. -/
theorem exists_of_numbers (h : log.Numbers n) :
    ∃ t, ofLog log = .ok (some t) ∧ t.tokenId.toNat = n := by
  cases h with
  | topic topics => exact ⟨_, ofLog_erc721 topics, rfl⟩
  | data topics long =>
    have hlength : (log.data.take 32).length = 32 := List.length_take_of_le long
    exact ⟨_, ofLog_erc1155 topics long, Word.toNat_ofBytes hlength⟩

end LoggedTransfer

namespace Handler

variable {p : Placed}

theorem of_place (h : place log = .ok (some p)) :
    LoggedTransfer.ofLog log = .ok (some p.transfer) := by
  unfold place at h
  split at h
  · cases h
  · cases h
  · rename_i transfer htransfer
    split at h
    · cases h
    · cases h
    · cases h
      exact htransfer

/-- In a block, a log that numbers a token is placed. -/
theorem exists_place {blockHash : BlockHash} {txHash : Word} (h : log.Numbers n)
    (hblock : log.blockHash = some blockHash) (htx : log.txHash = some txHash) :
    ∃ p, place log = .ok (some p) ∧ p.transfer.tokenId.toNat = n := by
  obtain ⟨transfer, htransfer, hn⟩ := LoggedTransfer.exists_of_numbers h
  exact ⟨⟨transfer, blockHash, txHash, log.index.getD 0⟩,
    by simp [place, htransfer, hblock, htx], hn⟩

def Placed.report (p : Placed) (time : Moment) : Transfer where
  source := some p.transfer.source.toText
  target := p.transfer.target.toText
  contract := p.transfer.contract.toText
  tokenId := .ofNat p.transfer.tokenId.toNat
  txId := BlockHash.toText p.txHash
  index := p.index
  time := time
  level := none

/-- The number of a word is always read back, so that every placed transfer has an event. -/
theorem Placed.toEvent_eq (p : Placed) (time : Moment) :
    p.toEvent time = .ok (.ofTransfer .ethereum (p.report time)) := by
  have hid : TokenId.ofDecimal (toString p.transfer.tokenId.toNat) =
      .ok (.ofNat p.transfer.tokenId.toNat) := by
    rw [Nat.toString_eq_ofList_toDigits]
    exact TokenId.ofDecimal_digits _
  simp only [Placed.toEvent, hid, Placed.report]

def Placed.event (p : Placed) (time : Moment) : Event := .ofTransfer .ethereum (p.report time)

section Handle

variable {m : Type → Type} [Monad m] {around : Surroundings m} {e : Error}

theorem handle_of_error (h : place log = .error e) : handle around log = pure (.error e) := by
  simp only [handle, h]

theorem handle_of_none (h : place log = .ok none) : handle around log = pure (.ok none) := by
  simp only [handle, h]

/-- A placed transfer is pushed when the time of its block is known. -/
theorem handle_of_placed (h : place log = .ok (some p)) :
    handle around log = do
      match ← BlockTime.resolve around.toSurroundings p.blockHash with
      | .error e => return .error (.blockTime e)
      | .ok time =>
        match ← around.push (p.event time) with
        | .error e => return .error (.emit e)
        | .ok () => return .ok (some (p.event time)) := by
  simp only [handle, h, Placed.toEvent_eq]
  rfl

end Handle

theorem place_ne_tokenId (cause : TokenId.Error) : place log ≠ .error (.tokenId cause) := by
  unfold place
  split
  · nofun
  · nofun
  · split <;> nofun

/-- No log fails on the number of its token. -/
theorem handle_ne_tokenId {σ : Type} (around : Surroundings (StateM σ)) (log : Log) (world : σ)
    (cause : TokenId.Error) : (handle around log world).1 ≠ .error (.tokenId cause) := by
  cases hplace : place log with
  | error e =>
    rw [handle_of_error hplace]
    intro heq
    have he : e = .tokenId cause := Except.error.inj heq
    exact place_ne_tokenId cause (he ▸ hplace)
  | ok placed =>
    cases placed with
    | none =>
      rw [handle_of_none hplace]
      nofun
    | some p =>
      rw [handle_of_placed hplace, Run.bind_state]
      cases (BlockTime.resolve around.toSurroundings p.blockHash world).1 with
      | error e => nofun
      | ok time =>
        simp only [Run.bind_state]
        generalize around.push (p.event time) _ = pushed
        obtain ⟨answer, after⟩ := pushed
        cases answer <;> nofun

end Handler
end TokenWatch.Ethereum
