import TokenWatch.Proofs.Ethereum.Reporting

/-!
The four values of a transfer of one token pass through its log and through its event: each layout
of a log is read back, and events of different transfers differ.
-/
namespace TokenWatch.Ethereum
open Time Text

variable {log : Log} {t u : LoggedTransfer}

namespace Word

/-- The lowest bytes of a number, the highest of them first. -/
def bytesOf : Nat → Nat → List UInt8
  | 0, _ => []
  | count + 1, n => bytesOf count (n / 256) ++ [UInt8.ofNat (n % 256)]

def bytes (w : Word) : List UInt8 := bytesOf 32 w.toNat

@[simp] theorem length_bytesOf (count n : Nat) : (bytesOf count n).length = count := by
  induction count generalizing n with
  | zero => rfl
  | succ count ih => rw [bytesOf, List.length_append, ih, List.length_singleton]

theorem length_bytes (w : Word) : w.bytes.length = 32 := by rw [bytes, length_bytesOf]

theorem natOfBytes_append (bytes : List UInt8) (b : UInt8) :
    natOfBytes (bytes ++ [b]) = 256 * natOfBytes bytes + b.toNat := by
  rw [natOfBytes, List.foldl_append]
  rfl

theorem natOfBytes_bytesOf (count n : Nat) : natOfBytes (bytesOf count n) = n % 256 ^ count := by
  induction count generalizing n with
  | zero => exact (Nat.mod_one n).symm
  | succ count ih =>
    have hbyte : n % 256 < UInt8.size := Nat.mod_lt n (by decide)
    rw [bytesOf, natOfBytes_append, ih, UInt8.toNat_ofNat_of_lt' hbyte, Nat.pow_succ',
      Nat.mod_mul, Nat.add_comm]

theorem ofBytes_bytes (w : Word) : ofBytes w.bytes = w := by
  have hsize : 256 ^ 32 = 2 ^ 256 := by decide
  apply BitVec.eq_of_toNat_eq
  rw [ofBytes, bytes, natOfBytes_bytesOf, hsize, BitVec.toNat_ofNat, Nat.mod_mod,
    Nat.mod_eq_of_lt w.isLt]

theorem toAddress_ofAddress (a : Address) : (ofAddress a).toAddress = a :=
  BitVec.setWidth_setWidth_of_le a (by decide)

end Word

namespace LoggedTransfer

section Layouts
variable (contract source target : Address) (operator id : Word) (data trailing : List UInt8)
  (blockHash : Option BlockHash) (txHash : Option Word) (index : Option UInt64)

/-- A transfer is read back from its topics, whatever the data. -/
theorem ofLog_topics :
    ofLog ⟨contract,
        [Standard.signature .erc721, Word.ofAddress source, Word.ofAddress target, id], data,
        blockHash, txHash, index⟩ =
      .ok (some ⟨.erc721, contract, source, target, id⟩) := by
  rw [ofLog_erc721 rfl, Word.toAddress_ofAddress, Word.toAddress_ofAddress]

/-- A transfer is read back from its topics and its data, whoever moved the token and whatever
follows its number. -/
theorem ofLog_data :
    ofLog ⟨contract,
        [Standard.signature .erc1155, operator, Word.ofAddress source, Word.ofAddress target],
        id.bytes ++ trailing, blockHash, txHash, index⟩ =
      .ok (some ⟨.erc1155, contract, source, target, id⟩) := by
  let log : Log := ⟨contract,
    [Standard.signature .erc1155, operator, Word.ofAddress source, Word.ofAddress target],
    id.bytes ++ trailing, blockHash, txHash, index⟩
  have hlong : 32 ≤ log.data.length := by
    rw [List.length_append, id.length_bytes]
    exact Nat.le_add_right 32 _
  have hid : log.data.take 32 = id.bytes := List.take_left' id.length_bytes
  have hread := @ofLog_erc1155 log operator (.ofAddress source) (.ofAddress target) rfl hlong
  rw [hid, Word.ofBytes_bytes, Word.toAddress_ofAddress, Word.toAddress_ofAddress] at hread
  exact hread

end Layouts

end LoggedTransfer

theorem Standard.mem_all (standard : Standard) : standard ∈ all := by
  cases standard <;> decide

/-- What is subscribed to is told by the first topic. -/
theorem LogFilter.admits_of_head {standard : Standard}
    (h : log.topics.head? = some standard.signature) : transfers.Admits log := by
  refine ⟨nofun, fun i values hvalues _ => ?_⟩
  cases i with
  | zero =>
    cases hvalues
    rw [List.head?_eq_getElem?] at h
    exact ⟨standard.signature, h, List.mem_map_of_mem standard.mem_all⟩
  | succ i => cases hvalues

/-- Logs of transfers are among those that are subscribed to. -/
theorem LoggedTransfer.admits_of_ofLog (h : ofLog log = .ok (some t)) :
    LogFilter.transfers.Admits log := by
  obtain ⟨-, -, hnumbers⟩ := of_ofLog h
  generalize t.tokenId.toNat = n at hnumbers
  cases hnumbers with
  | topic topics => exact LogFilter.admits_of_head (congrArg List.head? topics)
  | data topics _ => exact LogFilter.admits_of_head (congrArg List.head? topics)

theorem Spells.unique {text : String} {m n : Nat} (hm : Spells text m) (hn : Spells text n) :
    m = n := by
  obtain ⟨digits, htext, -, -, rfl⟩ := hm
  obtain ⟨digits', htext', -, -, rfl⟩ := hn
  have hdigits : digits = digits' := by
    simpa only [List.cons.injEq, true_and] using htext.symm.trans htext'
  rw [hdigits]

namespace LoggedTransfer

/-- An event with the values of a transfer and the transaction and the place of its log. The source
of a mint is told by the kind. -/
structure CarriedBy (t : LoggedTransfer) (txHash : Word) (index : Option UInt64) (e : Event) :
    Prop where
  contract : Spells e.contract t.contract.toNat
  mint : e.kind = .mint ↔ t.source.toNat = 0
  source : e.kind ≠ .mint → Spells e.source t.source.toNat
  target : Spells e.target t.target.toNat
  tokenId : e.tokenId.toNat = t.tokenId.toNat
  txId : ∃ digits, e.txId.toList = '0' :: 'x' :: digits ∧ digits.length = 64 ∧
    (∀ c ∈ digits, c ∈ Hex.alphabet) ∧ Hex.number digits = txHash.toNat
  index : e.index = index.getD 0

/-- An event does not carry the values of two transfers. -/
theorem CarriedBy.unique {tx tx' : Word} {i i' : Option UInt64} {e : Event}
    (ht : t.CarriedBy tx i e) (hu : u.CarriedBy tx' i' e) :
    (t.contract, t.source, t.target, t.tokenId) = (u.contract, u.source, u.target, u.tokenId) := by
  have hcontract := ht.contract.unique hu.contract
  have htarget := ht.target.unique hu.target
  have htokenId := ht.tokenId.symm.trans hu.tokenId
  have hsource : t.source.toNat = u.source.toNat := by
    by_cases hmint : e.kind = .mint
    · exact (ht.mint.mp hmint).trans (hu.mint.mp hmint).symm
    · exact (ht.source hmint).unique (hu.source hmint)
  rw [BitVec.eq_of_toNat_eq hcontract, BitVec.eq_of_toNat_eq hsource,
    BitVec.eq_of_toNat_eq htarget, BitVec.eq_of_toNat_eq htokenId]

end LoggedTransfer

/-- A log that is pushed once the time of its block is known. -/
structure Log.Qualifies (log : Log) : Prop where
  topics : log.topics.length = 4
  signature : log.topics.head? = some (Standard.signature .erc721) ∨
    log.topics.head? = some (Standard.signature .erc1155) ∧ 32 ≤ log.data.length
  block : log.blockHash.isSome
  tx : log.txHash.isSome

namespace Handler

variable {p : Placed}

theorem fields_of_place (h : place log = .ok (some p)) :
    log.blockHash = some p.blockHash ∧ log.txHash = some p.txHash ∧ p.index = log.index.getD 0 := by
  unfold place at h
  split at h
  · cases h
  · cases h
  · split at h
    · cases h
    · cases h
    · rename_i hblock htx
      cases h
      exact ⟨hblock, htx, rfl⟩

/-- The logs that are placed are told by their topics, their data and the presence of the hashes. -/
theorem exists_place_iff : (∃ p, place log = .ok (some p)) ↔ log.Qualifies := by
  constructor
  · rintro ⟨p, h⟩
    obtain ⟨hblock, htx, -⟩ := fields_of_place h
    obtain ⟨-, -, hnumbers⟩ := LoggedTransfer.of_ofLog (of_place h)
    have hblock : log.blockHash.isSome := hblock ▸ rfl
    have htx : log.txHash.isSome := htx ▸ rfl
    generalize p.transfer.tokenId.toNat = n at hnumbers
    cases hnumbers with
    | topic topics =>
      exact ⟨congrArg List.length topics, .inl (congrArg List.head? topics), hblock, htx⟩
    | data topics long =>
      exact ⟨congrArg List.length topics, .inr ⟨congrArg List.head? topics, long⟩, hblock, htx⟩
  · rintro ⟨hlength, hsignature, hblock, htx⟩
    obtain ⟨hash, hblock⟩ := Option.isSome_iff_exists.mp hblock
    obtain ⟨tx, htx⟩ := Option.isSome_iff_exists.mp htx
    obtain ⟨n, hnumbers⟩ : ∃ n, log.Numbers n := by
      match htopics : log.topics, hlength with
      | [signature, a, b, c], _ =>
        rw [htopics] at hsignature
        rcases hsignature with hsignature | ⟨hsignature, long⟩
        · cases hsignature
          exact ⟨_, .topic htopics⟩
        · cases hsignature
          exact ⟨_, .data htopics long⟩
    obtain ⟨p, hp, -⟩ := exists_place hnumbers hblock htx
    exact ⟨p, hp⟩

theorem Placed.carriedBy (h : place log = .ok (some p)) (time : Moment) :
    p.transfer.CarriedBy p.txHash log.index (p.event time) := by
  obtain ⟨-, -, hindex⟩ := fields_of_place h
  obtain ⟨hmint, -⟩ := p.kind_event time
  refine ⟨Address.toText_spells _, hmint, fun hkind => ?_, Address.toText_spells _, ?_, ?_, hindex⟩
  · rw [source_event hkind]
    exact Address.toText_spells _
  · exact TokenId.toNat_ofNat _
  · have hsize : 16 ^ 64 = 2 ^ 256 := by decide
    refine ⟨Hex.digits 64 p.txHash.toNat, String.toList_ofList, Hex.length_digits _ _,
      fun c hc => (Hex.of_mem_digits hc).1, ?_⟩
    rw [Hex.number_digits, hsize, Nat.mod_eq_of_lt p.txHash.isLt]

end Handler
end TokenWatch.Ethereum
