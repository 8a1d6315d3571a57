import Mathlib.Data.List.DropRight
import TokenWatch.Proofs.Url.Path

/-!
Slashes at the end of a text, and the empty segments that they make at the end of a path.
-/
namespace TokenWatch.Url

variable {c : Char} {cs front : List Char} {list : List String}

def withoutSlashes (cs : List Char) : List Char := cs.rdropWhile (· == '/')

/-- The slashes that go are all behind any other character. -/
theorem withoutSlashes_append_cons (h : c ≠ '/') (front cs : List Char) :
    withoutSlashes (front ++ c :: cs) = front ++ c :: withoutSlashes cs := by
  have hc : ¬(c == '/') = true := fun heq => h (eq_of_beq heq)
  induction cs using List.reverseRecOn with
  | nil => exact List.rdropWhile_concat_neg _ _ _ hc
  | append_singleton cs d ih =>
    have hassoc : front ++ c :: (cs ++ [d]) = (front ++ c :: cs) ++ [d] := by simp
    rw [withoutSlashes, withoutSlashes, hassoc, List.rdropWhile_concat, List.rdropWhile_concat]
    split
    · exact ih
    · exact hassoc.symm

theorem withoutSlashes_of_plain (h : ∀ c ∈ cs, c ≠ '/') : withoutSlashes cs = cs := by
  refine List.rdropWhile_eq_self_iff.mpr fun hne heq => ?_
  exact h _ (List.getLast_mem hne) (eq_of_beq heq)

theorem mem_of_mem_withoutSlashes (h : c ∈ withoutSlashes cs) : c ∈ cs :=
  (List.rdropWhile_prefix _ cs).subset h

theorem toText_append (list more : List String) :
    (Path.segments (list ++ more)).toText =
      (Path.segments list).toText ++ (Path.segments more).toText :=
  List.flatMap_append

/-- Behind a text that ends in no slash. -/
theorem withoutSlashes_append_toText (hfront : withoutSlashes front = front)
    (h : ∀ s ∈ list, IsSegment s) :
    withoutSlashes (front ++ (Path.segments list).toText) =
      front ++ (Path.segments (list.rdropWhile (· = ""))).toText := by
  induction list using List.reverseRecOn with
  | nil => simpa [Path.toText] using hfront
  | append_singleton list s ih =>
    obtain ⟨hlist, hs⟩ := List.forall_mem_append.mp h
    rw [toText_append, List.rdropWhile_concat]
    by_cases hempty : s = ""
    · rw [if_pos (decide_eq_true hempty), ← ih hlist, hempty, ← List.append_assoc]
      exact List.rdropWhile_concat_pos _ _ _ rfl
    · have hplain : ∀ c ∈ s.toList, c ≠ '/' := fun c hc =>
        ((List.forall_mem_singleton.mp hs).plain c hc).2.1
      obtain ⟨c, cs, hcons⟩ := List.exists_cons_of_ne_nil (mt String.toList_eq_nil_iff.mp hempty)
      rw [hcons] at hplain
      obtain ⟨hc, hcs⟩ := List.forall_mem_cons.mp hplain
      have htext : (Path.segments [s]).toText = ['/'] ++ c :: cs := by simp [Path.toText, hcons]
      have hno : ¬decide (s = "") = true := fun heq => hempty (of_decide_eq_true heq)
      rw [if_neg hno, toText_append, htext, ← List.append_assoc, ← List.append_assoc,
        withoutSlashes_append_cons hc, withoutSlashes_of_plain hcs]

end TokenWatch.Url
