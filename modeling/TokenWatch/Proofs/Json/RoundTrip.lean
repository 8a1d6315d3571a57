import TokenWatch.Json.Reader
import TokenWatch.Proofs.Json.Number
import TokenWatch.Proofs.Json.Scan

/-!
A JSON value whose numbers are whole is read back from its text: the text is cut into the tokens of
the value, and these are the value again.
-/
namespace TokenWatch.Json

namespace Value

mutual

/-- Whether all numbers of a value are whole. -/
def IsWhole : Value → Prop
  | number (.real _) => False
  | array items => AllWhole items
  | object members => MembersWhole members
  | _ => True

def AllWhole : List Value → Prop
  | [] => True
  | v :: vs => v.IsWhole ∧ AllWhole vs

def MembersWhole : List (String × Value) → Prop
  | [] => True
  | (_, v) :: vs => v.IsWhole ∧ MembersWhole vs

end

mutual

def tokens : Value → List Token
  | null => [.word "null".toList]
  | bool true => [.word "true".toList]
  | bool false => [.word "false".toList]
  | number n => [.word n.toText]
  | text s => [.quoted (some s)]
  | array items => .mark '[' :: (itemTokens items ++ [.mark ']'])
  | object members => .mark '{' :: (memberTokens members ++ [.mark '}'])

def itemTokens : List Value → List Token
  | [] => []
  | [v] => tokens v
  | v :: w :: rest => tokens v ++ .mark ',' :: itemTokens (w :: rest)

def memberTokens : List (String × Value) → List Token
  | [] => []
  | [(k, v)] => .quoted (some k) :: .mark ':' :: tokens v
  | (k, v) :: m :: rest =>
    .quoted (some k) :: .mark ':' :: (tokens v ++ .mark ',' :: memberTokens (m :: rest))

end

section Scanning
open Token

mutual

theorem scans_print : ∀ (v : Value) (ts : List Token), v.IsWhole →
    scans v.print ts = some (v.tokens.reverse ++ ts)
  | null, ts, _ => rfl
  | bool true, ts, _ => rfl
  | bool false, ts, _ => rfl
  | number (.whole n), ts, _ => by
    obtain ⟨hne, hword⟩ := n.isWord_toText
    rw [print, tokens, Number.toText, scans_word hne hword]
    rfl
  | text s, ts, _ => by
    rw [print, tokens, scans_quote]
    rfl
  | array items, ts, h => by
    have hitems := scans_printItems items (.mark '[' :: ts) h
    rw [print, scans_mark rfl, scans_append_mark rfl hitems, scans_nil, tokens]
    simp
  | object members, ts, h => by
    have hmembers := scans_printMembers members (.mark '{' :: ts) h
    rw [print, scans_mark rfl, scans_append_mark rfl hmembers, scans_nil, tokens]
    simp

theorem scans_printItems : ∀ (items : List Value) (ts : List Token), AllWhole items →
    scans (printItems items) ts = some ((itemTokens items).reverse ++ ts)
  | [], ts, _ => rfl
  | [v], ts, h => scans_print v ts h.1
  | v :: w :: rest, ts, h => by
    have hfirst := scans_print v ts h.1
    have hrest := scans_printItems (w :: rest) (.mark ',' :: (v.tokens.reverse ++ ts)) h.2
    rw [printItems, scans_append_mark rfl hfirst, hrest, itemTokens]
    simp

theorem scans_printMembers : ∀ (members : List (String × Value)) (ts : List Token),
    MembersWhole members →
    scans (printMembers members) ts = some ((memberTokens members).reverse ++ ts)
  | [], ts, _ => rfl
  | [(k, v)], ts, h => by
    have hvalue := scans_print v (.mark ':' :: .quoted (some k) :: ts) h.1
    rw [printMembers, scans_append_mark rfl (scans_quote k ts), hvalue, memberTokens]
    simp
  | (k, v) :: m :: rest, ts, h => by
    have hvalue := scans_print v (.mark ':' :: .quoted (some k) :: ts) h.1
    have hrest := scans_printMembers (m :: rest)
      (.mark ',' :: (v.tokens.reverse ++ .mark ':' :: .quoted (some k) :: ts)) h.2
    rw [printMembers, scans_append_mark rfl (scans_quote k ts), scans_append_mark rfl hvalue, hrest,
      memberTokens]
    simp

end

end Scanning

section Parsing
open Node Parse

variable {outer : List Frame}

/-- A value does not begin with the end of an array. -/
theorem tokens_eq_cons (v : Value) : ∃ t ts, v.tokens = t :: ts ∧ t ≠ .mark ']' := by
  cases v with
  | bool b => cases b <;> exact ⟨_, _, rfl, nofun⟩
  | array | object => exact ⟨_, _, rfl, by decide⟩
  | _ => exact ⟨_, _, rfl, nofun⟩

theorem itemTokens_eq_cons (v : Value) (vs : List Value) :
    ∃ t ts, itemTokens (v :: vs) = t :: ts ∧ t ≠ .mark ']' := by
  obtain ⟨t, ts, htokens, ht⟩ := v.tokens_eq_cons
  cases vs with
  | nil => exact ⟨t, ts, htokens, ht⟩
  | cons w rest =>
    rw [itemTokens, htokens, List.cons_append]
    exact ⟨t, _, rfl, ht⟩

theorem foldlM_firstItem {t : Token} {ts us : List Token} (hts : ts = t :: us)
    (ht : t ≠ .mark ']') (outer : List Frame) :
    ts.foldlM step? (firstItem outer) = ts.foldlM step? (value (.items [] :: outer)) := by
  have hstep : step? (firstItem outer) t = step? (value (.items [] :: outer)) t := if_neg ht
  rw [hts, List.foldlM_cons, List.foldlM_cons, hstep]

theorem memberTokens_eq_cons (k : String) (v : Value) (ms : List (String × Value)) :
    ∃ ts, memberTokens ((k, v) :: ms) = .quoted (some k) :: .mark ':' :: ts := by
  cases ms with
  | nil => exact ⟨_, rfl⟩
  | cons m rest => exact ⟨_, rfl⟩

theorem foldlM_firstKey {s : Option String} {ts us : List Token} (hts : ts = .quoted s :: us)
    (outer : List Frame) : ts.foldlM step? (firstKey outer) = ts.foldlM step? (key [] outer) := by
  have hstep : step? (firstKey outer) (.quoted s) = step? (key [] outer) (.quoted s) := rfl
  rw [hts, List.foldlM_cons, List.foldlM_cons, hstep]

/-- A key and a colon, after which the value of the member is read. -/
theorem foldlM_key (k : String) (read : List (Option String × Node)) (outer : List Frame)
    (ts : List Token) :
    (Token.quoted (some k) :: .mark ':' :: ts).foldlM step? (key read outer) =
      ts.foldlM step? (value (.members read (some k) :: outer)) := by
  have hkey : step? (key read outer) (.quoted (some k)) = some (colon read (some k) outer) := rfl
  have hcolon : step? (colon read (some k) outer) (.mark ':') =
      some (value (.members read (some k) :: outer)) := rfl
  rw [Run.foldlM_cons hkey, Run.foldlM_cons hcolon]

mutual

theorem foldlM_tokens : ∀ (v : Value) (outer : List Frame), v.IsWhole →
    v.tokens.foldlM step? (value outer) = some (after (ofValue v) outer)
  | null, outer, _ => rfl
  | bool true, outer, _ => rfl
  | bool false, outer, _ => rfl
  | number (.whole n), outer, _ => by
    have hstep : step? (value outer) (.word n.toText) =
        some (after (.number (some (.whole n))) outer) := by
      simp only [step?, beginValue?, ofWord?_toText, Option.map_some]
    rw [tokens, Number.toText, Run.foldlM_cons hstep]
    rfl
  | text s, outer, _ => rfl
  | array [], outer, _ => rfl
  | array (v :: vs), outer, h => by
    have hopen : step? (value outer) (.mark '[') = some (firstItem outer) := rfl
    obtain ⟨t, ts, htokens, ht⟩ := itemTokens_eq_cons v vs
    have hfirst : itemTokens (v :: vs) ++ [Token.mark ']'] = t :: (ts ++ [Token.mark ']']) := by
      rw [htokens]
      rfl
    rw [tokens, Run.foldlM_cons hopen, foldlM_firstItem hfirst ht,
      foldlM_itemTokens (v :: vs) [] outer (List.cons_ne_nil v vs) h]
    rfl
  | object [], outer, _ => rfl
  | object ((k, v) :: ms), outer, h => by
    have hopen : step? (value outer) (.mark '{') = some (firstKey outer) := rfl
    obtain ⟨ts, htokens⟩ := memberTokens_eq_cons k v ms
    have hfirst : memberTokens ((k, v) :: ms) ++ [Token.mark '}'] =
        .quoted (some k) :: .mark ':' :: (ts ++ [Token.mark '}']) := by
      rw [htokens]
      rfl
    rw [tokens, Run.foldlM_cons hopen, foldlM_firstKey hfirst,
      foldlM_memberTokens ((k, v) :: ms) [] outer (List.cons_ne_nil (k, v) ms) h]
    rfl

theorem foldlM_itemTokens : ∀ (items : List Value) (read : List Node) (outer : List Frame),
    items ≠ [] → AllWhole items →
    (itemTokens items ++ [Token.mark ']']).foldlM step? (value (.items read :: outer)) =
      some (after (.array (read.reverse ++ ofItems items)) outer)
  | [], read, outer, hne, _ => absurd rfl hne
  | [v], read, outer, _, h => by
    have hvalue := foldlM_tokens v (.items read :: outer) h.1
    have hend : step? (after (ofValue v) (.items read :: outer)) (.mark ']') =
        some (after (.array (ofValue v :: read).reverse) outer) := rfl
    rw [itemTokens, Run.foldlM_append hvalue, Run.foldlM_cons hend, List.reverse_cons]
    rfl
  | v :: w :: rest, read, outer, _, h => by
    have hvalue := foldlM_tokens v (.items read :: outer) h.1
    have hcomma : step? (after (ofValue v) (.items read :: outer)) (.mark ',') =
        some (value (.items (ofValue v :: read) :: outer)) := rfl
    rw [itemTokens, List.append_assoc, Run.foldlM_append hvalue, List.cons_append,
      Run.foldlM_cons hcomma,
      foldlM_itemTokens (w :: rest) (ofValue v :: read) outer (List.cons_ne_nil w rest) h.2]
    simp [ofItems]

theorem foldlM_memberTokens : ∀ (members : List (String × Value))
    (read : List (Option String × Node)) (outer : List Frame), members ≠ [] → MembersWhole members →
    (memberTokens members ++ [Token.mark '}']).foldlM step? (key read outer) =
      some (after (.object (read.reverse ++ Node.ofMembers members)) outer)
  | [], read, outer, hne, _ => absurd rfl hne
  | [(k, v)], read, outer, _, h => by
    have hvalue := foldlM_tokens v (.members read (some k) :: outer) h.1
    have hend : step? (after (ofValue v) (.members read (some k) :: outer)) (.mark '}') =
        some (after (.object ((some k, ofValue v) :: read).reverse) outer) := rfl
    rw [memberTokens, List.cons_append, List.cons_append, foldlM_key, Run.foldlM_append hvalue,
      Run.foldlM_cons hend, List.reverse_cons]
    rfl
  | (k, v) :: m :: rest, read, outer, _, h => by
    have hvalue := foldlM_tokens v (.members read (some k) :: outer) h.1
    have hcomma : step? (after (ofValue v) (.members read (some k) :: outer)) (.mark ',') =
        some (key ((some k, ofValue v) :: read) outer) := rfl
    rw [memberTokens, List.cons_append, List.cons_append, foldlM_key, List.append_assoc,
      Run.foldlM_append hvalue, List.cons_append, Run.foldlM_cons hcomma,
      foldlM_memberTokens (m :: rest) ((some k, ofValue v) :: read) outer
        (List.cons_ne_nil m rest) h.2]
    simp [Node.ofMembers]

end

end Parsing

/-- A value whose numbers are whole is read back from its text. -/
theorem parse?_print (v : Value) (h : v.IsWhole) : Node.parse? v.print = some (.ofValue v) := by
  have hscan : Token.scan? v.print = some v.tokens := by
    rw [Token.scan?_eq, scans_print v [] h, List.append_nil, Option.map_some, List.reverse_reverse]
  rw [Node.parse?, hscan, Option.bind_eq_bind, Option.bind_some, Node.ofTokens?, Node.Parse.start,
    foldlM_tokens v [] h]
  rfl

/-- Digits of a number of 64 bits are read as this number. -/
theorem parse?_toDigits (n : UInt64) : parse? (Nat.toDigits 10 n.toNat) = some (.ofUInt64 n) := by
  have hprint : (ofUInt64 n).print = Nat.toDigits 10 n.toNat := Integer.toText_ofUInt64 n
  rw [parse?, Reader.ofText?, ← hprint, parse?_print (ofUInt64 n) trivial]
  rfl

end Value
end TokenWatch.Json
