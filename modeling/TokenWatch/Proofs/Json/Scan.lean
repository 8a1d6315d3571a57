import TokenWatch.Json.Printer
import TokenWatch.Json.Token
import TokenWatch.Proofs.Run
import TokenWatch.Proofs.Text.Hex

/-!
What the scanner makes of printed pieces: a mark, a word that another piece follows, and a quoted
text, which comes out as it was before it was escaped.
-/
namespace TokenWatch.Json
open Text

namespace Token

variable {ts us : List Token} {cs ds : List Char} {c : Char}

/-- The tokens of a scan that may end where it stands, newest first. -/
def Scan.settled? (s : Scan) : Option (List Token) :=
  match s.place with
  | .between => some s.tokens
  | .word cs => some (.word cs.reverse :: s.tokens)
  | _ => none

/-- The tokens after a piece of text that begins between two tokens; `ts` are those before it. -/
def scans (cs : List Char) (ts : List Token) : Option (List Token) :=
  cs.foldlM Scan.step? ⟨ts, .between⟩ >>= Scan.settled?

theorem scan?_eq (cs : List Char) : scan? cs = (scans cs []).map List.reverse := by
  have hclose : ∀ s : Scan, s.close? = s.settled?.map List.reverse := by
    intro s
    obtain ⟨tokens, place⟩ := s
    cases place <;> rfl
  unfold scan? scans Scan.start
  cases List.foldlM Scan.step? ⟨[], .between⟩ cs with
  | none => rfl
  | some s => exact hclose s

theorem scans_nil (ts : List Token) : scans [] ts = some ts := rfl

theorem isWordPart_of_isMark (h : isMark c = true) : isWordPart c = false := by
  simp only [isMark, Bool.or_eq_true, beq_iff_eq] at h
  rcases h with ((((rfl | rfl) | rfl) | rfl) | rfl) | rfl <;> decide

theorem open?_mark (h : isMark c = true) (ts : List Token) :
    Scan.open? ts c = some ⟨.mark c :: ts, .between⟩ := by
  have hspace : isSpace c = false := by
    simp only [isMark, Bool.or_eq_true, beq_iff_eq] at h
    rcases h with ((((rfl | rfl) | rfl) | rfl) | rfl) | rfl <;> decide
  rw [Scan.open?, hspace, if_neg Bool.false_ne_true, if_pos h]

theorem scans_mark (h : isMark c = true) (cs : List Char) (ts : List Token) :
    scans (c :: cs) ts = scans cs (.mark c :: ts) := by
  have hstep : Scan.step? ⟨ts, .between⟩ c = some ⟨.mark c :: ts, .between⟩ := open?_mark h ts
  rw [scans, Run.foldlM_cons hstep]
  rfl

/-- A mark ends the piece before it. -/
theorem scans_append_mark (h : isMark c = true) (hcs : scans cs ts = some us) (ds : List Char) :
    scans (cs ++ c :: ds) ts = scans ds (.mark c :: us) := by
  have hword := isWordPart_of_isMark h
  obtain ⟨s, hs, hsettled⟩ := Option.bind_eq_some_iff.mp hcs
  have hstep : Scan.step? s c = some ⟨.mark c :: us, .between⟩ := by
    unfold Scan.settled? at hsettled
    split at hsettled
    · rename_i hplace
      cases hsettled
      rw [Scan.step?, hplace]
      exact open?_mark h s.tokens
    · rename_i w hplace
      cases hsettled
      simp only [Scan.step?, hplace, hword, Bool.false_eq_true, if_false]
      exact open?_mark h _
    · cases hsettled
  rw [scans, Run.foldlM_append hs, Run.foldlM_cons hstep]
  rfl

theorem foldlM_word {w : List Char} (h : cs.all isWordPart = true) :
    cs.foldlM Scan.step? ⟨ts, .word w⟩ = some ⟨ts, .word (cs.reverse ++ w)⟩ := by
  induction cs generalizing w with
  | nil => rfl
  | cons c cs ih =>
    rw [List.all_cons, Bool.and_eq_true] at h
    have hstep : Scan.step? ⟨ts, .word w⟩ c = some ⟨ts, .word (c :: w)⟩ := if_pos h.1
    rw [Run.foldlM_cons hstep, ih h.2, List.reverse_cons, List.append_assoc]
    rfl

theorem plain_of_isWordPart (h : isWordPart c = true) :
    isSpace c = false ∧ isMark c = false ∧ c ≠ '"' := by
  refine ⟨?_, ?_, ?_⟩
  · rw [Bool.eq_false_iff]
    intro hspace
    simp only [isSpace, Bool.or_eq_true, beq_iff_eq] at hspace
    rcases hspace with ((rfl | rfl) | rfl) | rfl <;> exact absurd h (by decide)
  · rw [Bool.eq_false_iff]
    intro hmark
    rw [isWordPart_of_isMark hmark] at h
    cases h
  · rintro rfl
    exact absurd h (by decide)

theorem scans_word (hne : cs ≠ []) (h : cs.all isWordPart = true) :
    scans cs ts = some (.word cs :: ts) := by
  cases cs with
  | nil => exact absurd rfl hne
  | cons c cs =>
    rw [List.all_cons, Bool.and_eq_true] at h
    have hopen : Scan.step? ⟨ts, .between⟩ c = some ⟨ts, .word [c]⟩ := by
      obtain ⟨hspace, hmark, hquote⟩ := plain_of_isWordPart h.1
      simp only [Scan.step?, Scan.open?, hspace, hmark, hquote, h.1, Bool.false_eq_true, if_false,
        if_true]
    rw [scans, Run.foldlM_cons hopen, foldlM_word h.2]
    simp [Scan.settled?]

section Quoted

theorem digitValue?_digit {n : Nat} (h : n < 16) : Hex.digitValue? (Hex.digit n) = some n := by
  obtain ⟨hmem, hlower, hindex⟩ := Hex.digit_spec h
  rw [Hex.digitValue?_eq, hlower, if_pos hmem, hindex]

theorem foldlM_unit {n : Nat} (h : n < 0x10000) (ts : List Token) (p : Partial) :
    (Hex.digits 4 n).foldlM Scan.step? ⟨ts, .unit p 3 0⟩ = some ⟨ts, .quoted (p.pushUnit n)⟩ := by
  have hdigit : ∀ k, Hex.digitValue? (Hex.digit (k % 16)) = some (k % 16) := fun k =>
    digitValue?_digit (Nat.mod_lt k (by decide))
  have hbits : 16 * (16 * (16 * (16 * 0 + n / 16 / 16 / 16 % 16) + n / 16 / 16 % 16) +
      n / 16 % 16) + n % 16 = n := by omega
  simp only [Hex.digits, List.nil_append, List.cons_append, List.foldlM_cons, List.foldlM_nil,
    Scan.step?, hdigit, Option.map_some, Option.bind_eq_bind, Option.bind_some, hbits]
  rfl

/-- What was escaped is taken for what it was. -/
theorem foldlM_escape (c : Char) (ts : List Token) (cs : List Char) :
    (escape c).foldlM Scan.step? ⟨ts, .quoted ⟨cs, none, true⟩⟩ =
      some ⟨ts, .quoted ⟨c :: cs, none, true⟩⟩ := by
  unfold escape
  split
  · subst c; rfl
  split
  · subst c; rfl
  split
  · subst c; rfl
  split
  · subst c; rfl
  split
  · subst c; rfl
  split
  · subst c; rfl
  split
  · subst c; rfl
  split
  · rename_i hsmall
    have hunit : Partial.pushUnit ⟨cs, none, true⟩ c.toNat = ⟨c :: cs, none, true⟩ := by
      have hhigh : Partial.isHigh c.toNat = false := by
        simp only [Partial.isHigh, Bool.and_eq_false_iff, decide_eq_false_iff_not]
        omega
      have hlow : Partial.isLow c.toNat = false := by
        simp only [Partial.isLow, Bool.and_eq_false_iff, decide_eq_false_iff_not]
        omega
      simp [Partial.pushUnit, Partial.push, hhigh, hlow, Char.ofNat_toNat]
    have hopen : ['\\', 'u'].foldlM Scan.step? ⟨ts, .quoted ⟨cs, none, true⟩⟩ =
        some ⟨ts, .unit ⟨cs, none, true⟩ 3 0⟩ := rfl
    rw [Run.foldlM_append hopen, foldlM_unit (by omega), hunit]
  · rename_i hquote hbackslash _ _ _ _ _ hlarge
    have hstep : Scan.step? ⟨ts, .quoted ⟨cs, none, true⟩⟩ c =
        some ⟨ts, .quoted ⟨c :: cs, none, true⟩⟩ := by
      simp only [Scan.step?, if_neg hquote, if_neg hbackslash, if_neg hlarge]
      rfl
    rw [Run.foldlM_cons hstep]
    rfl

theorem foldlM_flatMap_escape (cs : List Char) (ts : List Token) (before : List Char) :
    (cs.flatMap escape).foldlM Scan.step? ⟨ts, .quoted ⟨before, none, true⟩⟩ =
      some ⟨ts, .quoted ⟨cs.reverse ++ before, none, true⟩⟩ := by
  induction cs generalizing before with
  | nil => rfl
  | cons c cs ih =>
    rw [List.flatMap_cons, Run.foldlM_append (foldlM_escape c ts before), ih, List.reverse_cons,
      List.append_assoc]
    rfl

theorem scans_quote (s : String) (ts : List Token) :
    scans (quote s) ts = some (.quoted (some s) :: ts) := by
  have hopen : Scan.step? ⟨ts, .between⟩ '"' = some ⟨ts, .quoted .empty⟩ := rfl
  have hclose : Scan.step? ⟨ts, .quoted ⟨s.toList.reverse ++ [], none, true⟩⟩ '"' =
      some ⟨.quoted (some s) :: ts, .between⟩ := by
    simp [Scan.step?, Partial.close]
  rw [scans, quote, Run.foldlM_cons hopen, Partial.empty,
    Run.foldlM_append (foldlM_flatMap_escape s.toList ts []), Run.foldlM_cons hclose]
  rfl

end Quoted

end Token
end TokenWatch.Json
