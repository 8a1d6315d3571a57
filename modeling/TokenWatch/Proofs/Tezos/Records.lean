import TokenWatch.Tezos.Batch

/-!
Records of either kind, and the events that pages and batches of them bring.
-/
namespace TokenWatch.Tezos

/-- The two kinds of records, each with requests and a hub channel of its own. -/
inductive Channel where
  | transfers
  | updates
deriving DecidableEq

/-- The channels that are still without a batch after one of `channel`. -/
def without (fresh : Channel → Bool) (channel : Channel) : Channel → Bool :=
  fun c => fresh c && c != channel

inductive Record where
  | transfer (r : TransferRecord)
  | update (r : UpdateRecord)

theorem isDate_1970 : Time.IsDate 1970 1 1 := by decide

theorem universal_lt : (0 : Int).natAbs < 1440 := by decide

def mintRecord (id level : UInt64) : TransferRecord :=
  { id, level, time := ⟨⟨1970, 1, 1, isDate_1970⟩, .ofSeconds 0, 0, universal_lt⟩, contract := "",
    tokenId := "1", source := none, target := none, transaction := none, origination := none,
    migration := none }

namespace Record

def level : Record → UInt64
  | transfer r => r.level
  | update r => r.level

def event? : Record → Option Event
  | transfer r => r.toEvent.toOption
  | update r => r.toEvent.toOption.join

theorem ok_of_toOption {ε α : Type} {x : Except ε α} {a : α} (h : x.toOption = some a) :
    x = .ok a := by
  cases x with
  | error cause => cases h
  | ok b =>
    cases h
    rfl

/-- Transfers and updates bring what they report, at the level of the record. -/
theorem event?_cases {r : Record} {e : Event} (h : r.event? = some e) :
    (∃ t : Transfer, t.level = some r.level ∧ e = .ofTransfer .tezos t) ∨
    ∃ u : MetadataUpdate, u.level = some r.level ∧ e = .ofUpdate .tezos u := by
  cases r with
  | transfer r =>
    have hr : r.toEvent = .ok e := ok_of_toOption h
    unfold TransferRecord.toEvent at hr
    split at hr
    · cases hr
    · exact .inl ⟨_, rfl, (Except.ok.inj hr).symm⟩
  | update r =>
    have hr : r.toEvent = .ok (some e) := ok_of_toOption (Option.join_eq_some_iff.mp h)
    unfold UpdateRecord.toEvent at hr
    split at hr
    · split at hr
      · cases hr
      · split at hr
        · cases hr
        · exact .inr ⟨_, rfl, (Option.some.inj (Except.ok.inj hr)).symm⟩
    · cases hr

/-- An event carries the level of its record. -/
theorem level_of_event? {r : Record} {e : Event} (h : r.event? = some e) :
    e.level = some r.level := by
  rcases event?_cases h with ⟨t, hlevel, rfl⟩ | ⟨u, hlevel, rfl⟩
  · exact hlevel
  · exact hlevel

end Record

@[simp] theorem filterMap_event?_transfer (rs : List TransferRecord) :
    (rs.map Record.transfer).filterMap Record.event? = transferEvents rs :=
  List.filterMap_map

@[simp] theorem filterMap_event?_update (rs : List UpdateRecord) :
    (rs.map Record.update).filterMap Record.event? = updateEvents rs :=
  List.filterMap_map

namespace Batch

def channel? : Batch → Option Channel
  | transfers _ => some .transfers
  | updates _ => some .updates
  | ignored => none

def content : Batch → List Record
  | transfers rs => rs.map .transfer
  | updates rs => rs.map .update
  | ignored => []

@[simp] theorem filterMap_event?_content (b : Batch) :
    b.content.filterMap Record.event? = b.events := by
  cases b with
  | transfers rs => exact filterMap_event?_transfer rs
  | updates rs => exact filterMap_event?_update rs
  | ignored => rfl

end Batch
end TokenWatch.Tezos
