import TokenWatch.Ethereum.Address
import TokenWatch.Event.Chain
import TokenWatch.Proofs.Text.Hex

/-!
The text of an address. Its checksum changes no more than the case of digits, so that the text
spells the address, and the zero address is the only one with the text of a zero address.
-/
namespace TokenWatch.Ethereum
open Text

/-- `0x` and forty digits of either case that spell a number. -/
def Spells (text : String) (n : Nat) : Prop :=
  ∃ digits, text.toList = '0' :: 'x' :: digits ∧ digits.length = 40 ∧ Hex.IsNumeral digits ∧
    Hex.number digits = n

theorem Keccak.length_hash (bytes : List UInt8) : (Keccak.hash bytes).length = 32 := by
  have hlane : ∀ w, (Keccak.bytesOfLane w).length = 8 := by
    intro w
    rw [Keccak.bytesOfLane, List.length_map, List.length_range]
  simp only [Keccak.hash, List.length_flatMap, hlane, List.map_const', List.sum_replicate_nat,
    List.length_take, Vector.length_toList]
  decide

namespace Address

variable {a : Address}

theorem length_halves (bytes : List UInt8) : (halves bytes).length = 2 * bytes.length := by
  simp only [halves, List.length_flatMap, List.length_cons, List.length_nil, List.map_const',
    List.sum_replicate_nat]
  exact Nat.mul_comm _ _

theorem toLower_checkCase {digit : Char} (h : digit ∈ Hex.alphabet) (half : Nat) :
    (checkCase digit half).toLower = digit := by
  have hall : Hex.alphabet.all (fun d => d.toUpper.toLower = d ∧ d.toLower = d) = true := by decide
  obtain ⟨hupper, hlower⟩ := of_decide_eq_true (List.all_eq_true.mp hall digit h)
  unfold checkCase
  split
  · exact hupper
  · exact hlower

theorem map_toLower_zipWith {digits : List Char} {hash : List Nat}
    (hdigits : ∀ c ∈ digits, c ∈ Hex.alphabet) (hlength : digits.length ≤ hash.length) :
    (List.zipWith checkCase digits hash).map Char.toLower = digits := by
  induction digits generalizing hash with
  | nil => rfl
  | cons c digits ih =>
    cases hash with
    | nil => cases hlength
    | cons half hash =>
      obtain ⟨hc, hrest⟩ := List.forall_mem_cons.mp hdigits
      rw [List.zipWith_cons_cons, List.map_cons, toLower_checkCase hc,
        ih hrest (Nat.le_of_succ_le_succ hlength)]

/-- The digits of a text are those of the address, some of them as capitals. -/
theorem exists_digits (a : Address) :
    ∃ digits, a.toText.toList = '0' :: 'x' :: digits ∧ digits.map Char.toLower = a.hexDigits := by
  refine ⟨_, String.toList_ofList, ?_⟩
  apply map_toLower_zipWith
  · intro c hc
    exact (Hex.of_mem_digits hc).1
  · rw [length_halves, Keccak.length_hash, hexDigits, Hex.length_digits]
    decide

theorem number_hexDigits (a : Address) : Hex.number a.hexDigits = a.toNat := by
  have hsize : 16 ^ 40 = 2 ^ 160 := by decide
  rw [hexDigits, Hex.number_digits, hsize, Nat.mod_eq_of_lt a.isLt]

theorem map_toLower_hexDigits (a : Address) : a.hexDigits.map Char.toLower = a.hexDigits := by
  rw [hexDigits, List.map_congr_left fun c hc => (Hex.of_mem_digits hc).2, List.map_id']

/-- The text of an address spells it. -/
theorem toText_spells (a : Address) : Spells a.toText a.toNat := by
  obtain ⟨digits, htext, hlower⟩ := exists_digits a
  have hsame : digits.map Char.toLower = a.hexDigits.map Char.toLower :=
    hlower.trans (map_toLower_hexDigits a).symm
  have hlength := congrArg List.length hlower
  rw [List.length_map, hexDigits, Hex.length_digits] at hlength
  obtain ⟨hnumeral, hnumber⟩ := Hex.of_map_toLower hsame
  refine ⟨digits, htext, hlength, hnumeral.mpr ?_, hnumber.trans (number_hexDigits a)⟩
  intro c hc
  obtain ⟨hmem, hc⟩ := Hex.of_mem_digits hc
  rwa [hc]

theorem isZeroAddress_toText : Chain.ethereum.isZeroAddress a.toText = true ↔ a = 0 := by
  obtain ⟨digits, htext, hlower⟩ := exists_digits a
  have hzero : "0x0000000000000000000000000000000000000000".toList.map Char.toLower =
      '0' :: 'x' :: Hex.digits 40 0 := by decide
  have hx : 'x'.toLower = 'x' ∧ '0'.toLower = '0' := by decide
  simp only [Chain.isZeroAddress, Chain.zeroAddresses, List.any_cons, List.any_nil, Bool.or_false,
    Chain.sameAddress, beq_iff_eq, htext, hzero, List.map_cons, hx, hlower, List.cons.injEq,
    true_and, hexDigits]
  constructor
  · intro h
    have hmod := Hex.digits_injective h
    have hsize : 16 ^ 40 = 2 ^ 160 := by decide
    rw [hsize, Nat.mod_eq_of_lt a.isLt, Nat.zero_mod] at hmod
    exact BitVec.eq_of_toNat_eq hmod
  · rintro rfl
    rfl

end Address
end TokenWatch.Ethereum
