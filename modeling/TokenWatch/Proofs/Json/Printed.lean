import TokenWatch.Proofs.Json.RoundTrip

/-!
The text of a value is free of control characters, whatever stands in its texts and keys.
-/
namespace TokenWatch.Json
open Text

def Printable (cs : List Char) : Prop := ∀ c ∈ cs, 0x20 ≤ c.toNat

instance (cs : List Char) : Decidable (Printable cs) :=
  List.decidableBAll _ cs

namespace Printable

variable {cs ds : List Char} {c : Char}

theorem nil : Printable [] := List.forall_mem_nil _

theorem cons (hc : 0x20 ≤ c.toNat) (hcs : Printable cs) : Printable (c :: cs) :=
  List.forall_mem_cons.mpr ⟨hc, hcs⟩

theorem append (hcs : Printable cs) (hds : Printable ds) : Printable (cs ++ ds) :=
  List.forall_mem_append.mpr ⟨hcs, hds⟩

/-- Words are made of letters, digits and a few signs. -/
theorem le_toNat_of_isWordPart (h : Token.isWordPart c = true) : 0x20 ≤ c.toNat := by
  have hcontrol : ∀ n < 0x20, Token.isWordPart (Char.ofNat n) = false := by decide
  refine Nat.not_lt.mp fun hlow => ?_
  have hnot := hcontrol c.toNat hlow
  rw [Char.ofNat_toNat] at hnot
  exact Bool.false_ne_true (hnot.symm.trans h)

end Printable

theorem printable_digits (count n : Nat) : Printable (Hex.digits count n) := by
  intro c hc
  have hall : Printable Hex.alphabet := by decide
  exact hall c (Hex.of_mem_digits hc).1

theorem printable_escape (c : Char) : Printable (escape c) := by
  have hpair : ∀ d : Char, 0x20 ≤ d.toNat → Printable ['\\', d] := fun d hd =>
    .cons (by decide) (.cons hd .nil)
  unfold escape
  iterate 7
    split
    · exact hpair _ (by decide)
  split
  · exact (hpair 'u' (by decide)).append (printable_digits 4 c.toNat)
  · rename_i hlarge
    exact .cons (Nat.not_lt.mp hlarge) .nil

theorem printable_quote (s : String) : Printable (quote s) := by
  have hmark : 0x20 ≤ '"'.toNat := by decide
  refine .cons hmark (.append ?_ (.cons hmark .nil))
  intro c hc
  obtain ⟨d, -, hd⟩ := List.mem_flatMap.mp hc
  exact printable_escape d c hd

namespace Value

mutual

theorem printable_print : ∀ v : Value, v.IsWhole → Printable v.print
  | null, _ => by decide
  | bool true, _ => by decide
  | bool false, _ => by decide
  | number (.whole n), _ => fun c hc =>
    Printable.le_toNat_of_isWordPart (List.all_eq_true.mp n.isWord_toText.2 c hc)
  | text s, _ => printable_quote s
  | array items, h =>
    .cons (by decide) ((printable_printItems items h).append (.cons (by decide) .nil))
  | object members, h =>
    .cons (by decide) ((printable_printMembers members h).append (.cons (by decide) .nil))

theorem printable_printItems : ∀ items : List Value, AllWhole items → Printable (printItems items)
  | [], _ => .nil
  | [v], h => printable_print v h.1
  | v :: w :: rest, h =>
    (printable_print v h.1).append (.cons (by decide) (printable_printItems (w :: rest) h.2))

theorem printable_printMembers : ∀ members : List (String × Value), MembersWhole members →
    Printable (printMembers members)
  | [], _ => .nil
  | [(k, v)], h => (printable_quote k).append (.cons (by decide) (printable_print v h.1))
  | (k, v) :: m :: rest, h =>
    (printable_quote k).append (.cons (by decide) ((printable_print v h.1).append
      (.cons (by decide) (printable_printMembers (m :: rest) h.2))))

end

end Value

end TokenWatch.Json
