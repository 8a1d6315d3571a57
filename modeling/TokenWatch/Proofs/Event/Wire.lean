import TokenWatch.Event.Wire
import TokenWatch.Proofs.Event.TokenId
import TokenWatch.Proofs.Json.Members
import TokenWatch.Proofs.Time.Rfc3339

/-!
The body that hands an event over: it is read back as it was, in whatever order its members are
written, and it tells events apart up to a level that is missing or zero.
-/
namespace TokenWatch
open Time Json

namespace Submission

def members (i : Submission) : List (String × Value) :=
  [("type", .text i.kind.name),
   ("blockchain", .text i.chain.name),
   ("contract", .text i.contract),
   ("from", .text i.source),
   ("to", .text i.target),
   ("tokenID", .text i.tokenId.text),
   ("txID", .text i.txId),
   ("eventIndex", .ofUInt64 i.index),
   ("level", .ofUInt64 i.level),
   ("txTime", .text i.time.toText)]

def body (i : Submission) : List Char := (Value.object i.members).print

theorem map_fst_members (i : Submission) :
    i.members.map Prod.fst = ["type", "blockchain", "contract", "from", "to", "tokenID", "txID",
      "eventIndex", "level", "txTime"] := rfl

theorem nodup_keys (i : Submission) : (i.members.map Prod.fst).Nodup := by
  rw [map_fst_members]
  decide

theorem isWhole_members (i : Submission) : ∀ m ∈ i.members, m.2.IsWhole := by
  simp [members, Value.ofUInt64, Value.IsWhole]

end Submission

namespace Json.Reader

theorem text_ofValue (s : String) (levels : Nat) :
    text levels (Node.ofValue (.text s)) = some s := rfl

theorem uint64_ofValue (n : UInt64) (levels : Nat) :
    uint64 levels (Node.ofValue (.ofUInt64 n)) = some n := by
  have hpositive : 0 ≤ (Integer.ofUInt64 n).value := Int.natCast_nonneg n.toNat
  have hread : (Integer.ofUInt64 n).toUInt64? = some n := by
    rw [Integer.toUInt64?, if_pos hpositive]
    exact congrArg some (UInt64.ofNat_toNat)
  exact hread

theorem tokenId_ofValue (t : TokenId) (levels : Nat) :
    tokenId levels (Node.ofValue (.text t.text)) = some t := by
  show TokenId.ofDecimal? t.text = some t
  rw [TokenId.ofDecimal?, TokenId.ofDecimal_text]
  rfl

theorem moment_ofValue (m : Moment) (levels : Nat) :
    moment levels (Node.ofValue (.text m.toText)) = some m := by
  rw [moment, andThen, text_ofValue, Option.bind_some, Moment.ofText?_toText]

theorem eventKind_ofValue (k : EventKind) (levels : Nat) :
    eventKind levels (Node.ofValue (.text k.name)) = some k := by
  cases k <;> rfl

theorem chain_ofValue (c : Chain) (levels : Nat) :
    chain levels (Node.ofValue (.text c.name)) = some c := by
  cases c <;> rfl

/-- The members of a body are read back in any order. -/
theorem submission_ofValue {i : Submission} {members : List (String × Value)}
    (h : members.Perm i.members) (levels : Nat) :
    submission (levels + 1) (Node.ofValue (.object members)) = some i := by
  have hkeys := h.map Prod.fst
  have known : ∀ m ∈ members, m.1 ∈ ["type", "blockchain", "contract", "from", "to", "tokenID",
      "txID", "eventIndex", "level", "txTime"] := by
    intro m hm
    rw [← i.map_fst_members, ← hkeys.mem_iff]
    exact List.mem_map_of_mem hm
  obtain ⟨p, hparts, hlevels, hget⟩ :=
    exists_parts (hkeys.nodup_iff.mpr i.nodup_keys) known levels
  have hfields : ∀ m ∈ i.members, p.get? m.1 = some (Node.ofValue m.2) := fun m hm =>
    hget m.1 m.2 (h.mem_iff.mpr hm)
  simp only [Submission.members, List.forall_mem_cons] at hfields
  obtain ⟨hkind, hchain, hcontract, hsource, htarget, htokenId, htxId, hindex, hlevel, htime, -⟩ :=
    hfields
  simp only [submission, hparts, Option.bind_eq_bind, Option.bind_some,
    Parts.required_of_get? hkind, eventKind_ofValue, Parts.required_of_get? hchain, chain_ofValue,
    Parts.required_of_get? hcontract, Parts.required_of_get? hsource,
    Parts.required_of_get? htarget, Parts.required_of_get? htokenId, tokenId_ofValue,
    Parts.required_of_get? htxId, text_ofValue, Parts.withDefault_of_get? hindex,
    Parts.withDefault_of_get? hlevel, uint64_ofValue, Parts.required_of_get? htime, moment_ofValue]
  rfl

end Json.Reader

namespace Submission

variable {i : Submission} {e f : Event} {cs ds : List Char}

/-- A body is read back from its text, whatever the order of its members. -/
theorem ofText?_print {members : List (String × Value)} (h : members.Perm i.members) :
    Reader.ofText? Reader.submission (Value.object members).print = some i := by
  have whole : (Value.object members).IsWhole := by
    apply Value.membersWhole_iff.mpr
    intro m hm
    exact i.isWhole_members m (h.mem_iff.mp hm)
  rw [Reader.ofText?, Value.parse?_print _ whole]
  exact Reader.submission_ofValue h 126

theorem ofText?_body (i : Submission) : Reader.ofText? Reader.submission i.body = some i :=
  ofText?_print (.refl _)

theorem toJson_perm (i : Submission) :
    ∃ members, i.toJson = .object members ∧ members.Perm i.members :=
  Value.ofMembers_perm i.nodup_keys

/-- Events have one body if they differ in no more than whether a level is missing or zero. -/
theorem ofEvent_eq_iff : ofEvent e = ofEvent f ↔
    { e with level := none } = { f with level := none } ∧ e.level.getD 0 = f.level.getD 0 := by
  obtain ⟨kind, source, target, contract, chain, tokenId, txId, index, time, level⟩ := e
  obtain ⟨kind', source', target', contract', chain', tokenId', txId', index', time', level'⟩ := f
  simp only [ofEvent, Submission.mk.injEq, Event.mk.injEq]
  constructor
  · rintro ⟨rfl, rfl, rfl, rfl, rfl, rfl, rfl, rfl, hlevel, rfl⟩
    exact ⟨⟨rfl, rfl, rfl, rfl, rfl, rfl, rfl, rfl, rfl, trivial⟩, hlevel⟩
  · rintro ⟨⟨rfl, rfl, rfl, rfl, rfl, rfl, rfl, rfl, rfl, -⟩, hlevel⟩
    exact ⟨rfl, rfl, rfl, rfl, rfl, rfl, rfl, rfl, hlevel, rfl⟩

/-- The body that is written for a text once this has been read. -/
def rewrite? (cs : List Char) : Option (List Char) :=
  (Reader.ofText? Reader.submission cs).map body

theorem rewrite?_of_rewrite? (h : rewrite? cs = some ds) : rewrite? ds = some ds := by
  obtain ⟨i, -, rfl⟩ := Option.map_eq_some_iff.mp h
  rw [rewrite?, ofText?_body]
  rfl

end Submission

/-- The body of every event is read back as it was, with any text in its fields, any numbers, and a
time at any offset and to the nanosecond, and in whatever order its members are written, the
declared order and that of the keys among them. Events with equal bodies are equal, but for a level
that is missing in one and zero in the other, and these have equal bodies. A text that was read and
written again stays as it is from then on. -/
theorem Event.wire_form_faithful :
    (∀ (i : Submission) members, members.Perm i.members →
      Reader.ofText? Reader.submission (Value.object members).print = some i) ∧
    (∀ i : Submission, ∃ members, i.toJson = .object members ∧ members.Perm i.members) ∧
    (∀ (e f : Event) ms ns, ms.Perm (Submission.ofEvent e).members →
      ns.Perm (Submission.ofEvent f).members →
      (Value.object ms).print = (Value.object ns).print →
      { e with level := none } = { f with level := none } ∧ e.level.getD 0 = f.level.getD 0) ∧
    (∀ e f : Event, { e with level := none } = { f with level := none } →
      e.level.getD 0 = f.level.getD 0 →
      (Submission.ofEvent e).body = (Submission.ofEvent f).body) ∧
    (∀ cs ds, Submission.rewrite? cs = some ds → Submission.rewrite? ds = some ds) := by
  refine ⟨?_, Submission.toJson_perm, ?_, ?_, ?_⟩
  · intro i members h
    exact Submission.ofText?_print h
  · intro e f ms ns hms hns hprint
    have he := Submission.ofText?_print hms
    rw [hprint, Submission.ofText?_print hns] at he
    exact Submission.ofEvent_eq_iff.mp (Option.some.inj he).symm
  · intro e f hfields hlevel
    exact congrArg Submission.body (Submission.ofEvent_eq_iff.mpr ⟨hfields, hlevel⟩)
  · intro cs ds h
    exact Submission.rewrite?_of_rewrite? h

/-- An event without a level, with a quote, a control character and a letter beyond ASCII in its
texts, at the end of a leap second ahead of universal time: it is read back from its members in
reverse, a level of zero has the same body, and this body is written again as it is. -/
theorem Event.wire_form_faithful_of_escapes :
    let time : Moment :=
      ⟨⟨2017, 1, 1, by decide⟩, ⟨5, 29, 59, 999999999, by decide⟩, 330, by decide⟩
    let e : Event :=
      ⟨.transfer, "\"a\\", "\x01é", "KT1", .tezos, .ofNat 7, "", 18446744073709551615, time, none⟩
    Reader.ofText? Reader.submission
        (Value.object (Submission.ofEvent e).members.reverse).print = some (.ofEvent e) ∧
      (Submission.ofEvent e).body = (Submission.ofEvent { e with level := some 0 }).body ∧
      Submission.rewrite? (Submission.ofEvent e).body = some (Submission.ofEvent e).body := by
  intro time e
  obtain ⟨read, -, -, same, again⟩ := Event.wire_form_faithful
  have hread := read (.ofEvent e) (Submission.ofEvent e).members (.refl _)
  have hwritten : Submission.rewrite? (Submission.ofEvent e).body =
      some (Submission.ofEvent e).body := by
    rw [Submission.rewrite?, Submission.body, hread]
    rfl
  exact ⟨read _ _ (List.reverse_perm _), same e { e with level := some 0 } rfl rfl,
    again _ _ hwritten⟩

end TokenWatch
