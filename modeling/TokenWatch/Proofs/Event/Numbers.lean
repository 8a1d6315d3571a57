import TokenWatch.Bitmark.Transaction
import TokenWatch.Proofs.Ethereum.Placing
import TokenWatch.Proofs.Json.RoundTrip
import TokenWatch.Proofs.Text.Hex
import TokenWatch.Tezos.Record

/-!
The number of an event's token. Each chain names a token in a way of its own; the identifier in the
event is the canonical decimal form of the number that is meant.
-/
namespace TokenWatch

namespace Tezos
open Text

/-- The number that a text or a number of a record means. -/
inductive Denotes : Json.Value → Nat → Prop where
  | decimal {s : String} (h : Numeral.IsNumeral s.toList) :
      Denotes (.text s) (Numeral.value s.toList)
  | integer (n : UInt64) : Denotes (.ofUInt64 n) n.toNat

/-- What an entry names its token with: what stands under `token_id` in its value if that is a text
or a number, and else its key. -/
inductive MapEntry.Names (entry : MapEntry) : Json.Value → Prop where
  | value {v : Json.Value} (given : entry.value.get? "token_id" = some v)
      (scalar : UpdateRecord.scalarText? v ≠ none) : Names entry v
  | key (absent : entry.value.get? "token_id" >>= UpdateRecord.scalarText? = none) :
      Names entry entry.key

variable {entry : MapEntry} {v : Json.Value} {n : Nat}

theorem tokenText?_of_names {text : String} (h : entry.Names v)
    (hv : UpdateRecord.scalarText? v = some text) :
    UpdateRecord.MapEntry.tokenText? entry = some text := by
  cases h with
  | value given scalar => simp [UpdateRecord.MapEntry.tokenText?, given, hv]
  | key absent => simp only [UpdateRecord.MapEntry.tokenText?, absent, hv]; rfl

/-- A text or number that means a number is read as the identifier of that number. -/
theorem exists_text_of_denotes (h : Denotes v n) :
    ∃ text, UpdateRecord.scalarText? v = some text ∧ TokenId.ofDecimal text = .ok (.ofNat n) := by
  cases h with
  | decimal hs => exact ⟨_, rfl, TokenId.ofDecimal_of_isNumeral hs⟩
  | integer n =>
    refine ⟨_, rfl, ?_⟩
    rw [Json.Number.toText, Json.Integer.toText_ofUInt64]
    exact TokenId.ofDecimal_digits n.toNat

theorem readTokenId_of_ok {id : UInt64} {text : String} {t : TokenId}
    (h : TokenId.ofDecimal text = .ok t) : readTokenId id text = .ok t := by
  simp only [readTokenId, h]

theorem TransferRecord.exists_event {r : TransferRecord}
    (h : Numeral.IsNumeral r.tokenId.toList) :
    ∃ e, r.toEvent = .ok e ∧ e.tokenId = .ofNat (Numeral.value r.tokenId.toList) := by
  have hid : readTokenId r.id r.tokenId = _ := readTokenId_of_ok (TokenId.ofDecimal_of_isNumeral h)
  simp only [TransferRecord.toEvent, hid]
  exact ⟨_, rfl, rfl⟩

theorem UpdateRecord.exists_event {r : UpdateRecord} (change : r.IsChange)
    (content : r.content = some entry) (names : entry.Names v) (denotes : Denotes v n) :
    ∃ e, r.toEvent = .ok (some e) ∧ e.tokenId = .ofNat n := by
  obtain ⟨text, hv, hid⟩ := exists_text_of_denotes denotes
  have htext : r.content >>= MapEntry.tokenText? = some text := by
    rw [content]
    exact tokenText?_of_names names hv
  simp only [UpdateRecord.toEvent, if_pos change, htext, readTokenId_of_ok hid]
  exact ⟨_, rfl, rfl⟩

end Tezos

namespace Bitmark
open Text Time

/-- The number of a ledger identifier: hexadecimal digits of either case, among which underscores do
not count, for a number of at most 512 bits. -/
def Numbers (id : String) (n : Nat) : Prop :=
  Hex.IsNumeral (id.toList.filter (· ≠ '_')) ∧ Hex.number (id.toList.filter (· ≠ '_')) = n ∧
    n < 2 ^ 512

variable {t : Transaction} {id : String} {n : Nat} {time : Moment}

theorem idNumber?_eq_some_iff : Transaction.idNumber? id = some n ↔ Numbers id n := by
  unfold Transaction.idNumber? Transaction.idBound Numbers
  rw [Option.filter_eq_some_iff, decide_eq_true_eq, Hex.value?_eq_some_iff, and_assoc]
  exact Iff.rfl

theorem Transaction.exists_event (h : Numbers t.bitmarkId n) (time : Moment) :
    ∃ e, t.toEvent time = .ok e ∧ e.tokenId = .ofNat n := by
  have hn := idNumber?_eq_some_iff.mpr h
  simp only [Transaction.toEvent, Transaction.tokenId, hn]
  exact ⟨_, rfl, rfl⟩

theorem Transaction.toEvent_of_not_numbers (h : ∀ n, ¬Numbers t.bitmarkId n) (time : Moment) :
    t.toEvent time = .error (.invalidBitmarkId t.bitmarkId) := by
  have hnone : idNumber? t.bitmarkId = none := by
    apply Option.eq_none_iff_forall_not_mem.mpr
    intro n hn
    exact h n (idNumber?_eq_some_iff.mp hn)
  simp only [Transaction.toEvent, Transaction.tokenId, hnone]

end Bitmark

open Text Ethereum in
/-- A token identifier means the same number wherever it comes from: a decimal text, a word of a
log, a ledger identifier, a text or a number of a record. Reading accepts the non-empty texts of
digits and nothing else, an identifier is the decimal form of its number and is read as itself, the
events of logs, ledger transactions and records carry the identifier of the number that was given,
and no log fails on it. The digits of a number of 64 bits in a JSON text are read as it. -/
theorem TokenId.same_number_on_every_path :
    (∀ s t, TokenId.ofDecimal s = .ok t ↔
      Numeral.IsNumeral s.toList ∧ t = .ofNat (Numeral.value s.toList)) ∧
    (∀ n, (TokenId.ofNat n).text.toList = Nat.toDigits 10 n ∧
      Numeral.IsCanonical (TokenId.ofNat n).text.toList) ∧
    (∀ t : TokenId, TokenId.ofDecimal t.text = .ok t) ∧
    (∀ s s' t t', TokenId.ofDecimal s = .ok t → TokenId.ofDecimal s' = .ok t' →
      (t = t' ↔ Numeral.value s.toList = Numeral.value s'.toList)) ∧
    (∀ m n, TokenId.ofNat m = TokenId.ofNat n ↔ m = n) ∧
    (∀ (log : Log) n blockHash txHash, log.Numbers n → log.blockHash = some blockHash →
      log.txHash = some txHash → ∃ p, Handler.place log = .ok (some p) ∧
        ∀ time, ∃ e, p.toEvent time = .ok e ∧ e.tokenId = .ofNat n) ∧
    (∀ {σ : Type} (around : Handler.Surroundings (StateM σ)) log world cause,
      (Handler.handle around log world).1 ≠ .error (.tokenId cause)) ∧
    (∀ (t : Bitmark.Transaction) n time, Bitmark.Numbers t.bitmarkId n →
      ∃ e, t.toEvent time = .ok e ∧ e.tokenId = .ofNat n) ∧
    (∀ (t : Bitmark.Transaction) time, (∀ n, ¬Bitmark.Numbers t.bitmarkId n) →
      t.toEvent time = .error (.invalidBitmarkId t.bitmarkId)) ∧
    (∀ r : Tezos.TransferRecord, Numeral.IsNumeral r.tokenId.toList →
      ∃ e, r.toEvent = .ok e ∧ e.tokenId = .ofNat (Numeral.value r.tokenId.toList)) ∧
    (∀ (r : Tezos.UpdateRecord) entry v n, r.IsChange → r.content = some entry →
      Tezos.MapEntry.Names entry v → Tezos.Denotes v n →
        ∃ e, r.toEvent = .ok (some e) ∧ e.tokenId = .ofNat n) ∧
    (∀ n : UInt64, Json.Value.parse? (Nat.toDigits 10 n.toNat) = some (.ofUInt64 n)) := by
  have hinjective : ∀ m n, TokenId.ofNat m = TokenId.ofNat n ↔ m = n := by
    intro m n
    rw [TokenId.eq_iff_toNat_eq, TokenId.toNat_ofNat, TokenId.toNat_ofNat]
  have hdigits : ∀ n, (TokenId.ofNat n).text.toList = Nat.toDigits 10 n := by
    intro n
    rw [TokenId.toList_text, TokenId.toNat_ofNat]
  refine ⟨fun s t => TokenId.ofDecimal_eq_ok_iff, fun n => ⟨hdigits n, (TokenId.ofNat n).canonical⟩,
    TokenId.ofDecimal_text, ?_, hinjective, ?_, Handler.handle_ne_tokenId, ?_, ?_, ?_, ?_,
    Json.Value.parse?_toDigits⟩
  · intro s s' t t' ht ht'
    rw [(TokenId.ofDecimal_eq_ok_iff.mp ht).2, (TokenId.ofDecimal_eq_ok_iff.mp ht').2]
    exact hinjective _ _
  · intro log n blockHash txHash numbers hblock htx
    obtain ⟨p, hplace, hn⟩ := Handler.exists_place numbers hblock htx
    refine ⟨p, hplace, fun time => ⟨_, p.toEvent_eq time, ?_⟩⟩
    exact congrArg TokenId.ofNat hn
  · intro t n time numbers
    exact Bitmark.Transaction.exists_event numbers time
  · intro t time none
    exact Bitmark.Transaction.toEvent_of_not_numbers none time
  · intro r numeral
    exact Tezos.TransferRecord.exists_event numeral
  · intro r entry v n change content names denotes
    exact Tezos.UpdateRecord.exists_event change content names denotes

open Text Ethereum in
/-- The number 255 as a topic, among the digits of a ledger identifier, and as a text with a leading
zero and a number in records; a ledger identifier with a marker is none. -/
theorem TokenId.same_number_of_255 :
    (∃ p, Handler.place
        ⟨7, [Standard.signature .erc721, 1, 2, 255], [], some 3, some 4, none⟩ = .ok (some p) ∧
      ∀ time, ∃ e, p.toEvent time = .ok e ∧ e.tokenId = .ofNat 255) ∧
    (∀ time, ∃ e, Bitmark.Transaction.toEvent ⟨"id", "owner", "F_f", none⟩ time = .ok e ∧
      e.tokenId = .ofNat 255) ∧
    (∀ time, Bitmark.Transaction.toEvent ⟨"id", "owner", "0xff", none⟩ time =
      .error (.invalidBitmarkId "0xff")) ∧
    (∀ time, ∃ e, Tezos.TransferRecord.toEvent
        ⟨1, 2, time, "KT1", "0255", none, none, none, none, none⟩ = .ok e ∧
      e.tokenId = .ofNat 255) ∧
    (∀ time, ∃ e, Tezos.UpdateRecord.toEvent
        ⟨1, 2, time, "KT1", "update_key", some ⟨.null, .object [("token_id", .ofUInt64 255)]⟩⟩ =
          .ok (some e) ∧
      e.tokenId = .ofNat 255) := by
  obtain ⟨-, -, -, -, -, logs, -, ledger, rejected, transfers, updates, -⟩ :=
    TokenId.same_number_on_every_path
  have digits : Bitmark.Numbers "F_f" 255 := by
    have bound : 255 < 2 ^ 512 := by
      calc 255 < 2 ^ 8 := by decide
        _ ≤ 2 ^ 512 := Nat.pow_le_pow_right (by decide) (by decide)
    refine ⟨?_, by decide, bound⟩
    show ∀ c ∈ ['F', 'f'], c.toLower ∈ Hex.alphabet
    simp only [List.forall_mem_cons, List.not_mem_nil, false_implies, implies_true, and_true]
    decide
  refine ⟨logs _ (255#256 : Word).toNat 3 4 (.topic rfl) rfl rfl, ?_, ?_, ?_, ?_⟩
  · intro time
    exact ledger ⟨"id", "owner", "F_f", none⟩ 255 time digits
  · intro time
    refine rejected ⟨"id", "owner", "0xff", none⟩ time ?_
    rintro n ⟨numeral, -⟩
    exact absurd (numeral 'x' (by decide)) (by decide)
  · intro time
    have value : Numeral.value "0255".toList = 255 := by decide
    rw [← value]
    exact transfers ⟨1, 2, time, "KT1", "0255", none, none, none, none, none⟩
      (show Numeral.IsNumeral "0255".toList by decide)
  · intro time
    exact updates _ _ _ _ (show "update_key" ∈ Tezos.UpdateRecord.changeActions by decide) rfl
      (.value rfl nofun) (.integer 255)

end TokenWatch
