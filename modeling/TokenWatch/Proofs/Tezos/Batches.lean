import TokenWatch.Proofs.Event.Wire
import TokenWatch.Proofs.Json.Depth
import TokenWatch.Proofs.Tezos.Records
import TokenWatch.Proofs.Traversal

/-!
The batches that come from the hub, compared with their elements one by one: a batch brings the
events of its good records as long as every element is a record, and none at all otherwise.
-/
namespace TokenWatch

namespace Json.Reader
open Tezos

theorem saturates_moment : Saturates moment := saturates_text.andThen _

theorem saturates_account : Saturates account :=
  saturates_record _ fun _ _ _ _ shared => Parts.required_congr saturates_text shared _

theorem saturates_token : Saturates token := by
  refine saturates_record _ fun given positional m n shared => ?_
  simp only [Parts.required_congr saturates_account shared,
    Parts.required_congr saturates_text shared]

theorem saturates_transferRecord : Saturates transferRecord := by
  refine saturates_record _ fun given positional m n shared => ?_
  simp only [Parts.required_congr saturates_uint64 shared,
    Parts.required_congr saturates_moment shared, Parts.required_congr saturates_token shared,
    Parts.withDefault_congr saturates_account.orNull shared,
    Parts.withDefault_congr saturates_uint64.orNull shared]

theorem saturates_mapEntry : Saturates mapEntry := by
  refine saturates_record _ fun given positional m n shared => ?_
  simp only [Parts.withDefault_congr saturates_value shared]

theorem saturates_updateRecord : Saturates updateRecord := by
  refine saturates_record _ fun given positional m n shared => ?_
  simp only [Parts.required_congr saturates_uint64 shared,
    Parts.required_congr saturates_moment shared, Parts.required_congr saturates_account shared,
    Parts.required_congr saturates_text shared,
    Parts.withDefault_congr saturates_mapEntry.orNull shared]

end Json.Reader

namespace Tezos
open Json

variable {α : Type} {items : List Value} {payload : Value} {r : Reader α} {c : Channel}

/-- A payload that brings data, with its members in any order and others among them, or by
position. -/
inductive BringsData (items : List Value) : Value → Prop where
  | object {members : List (String × Value)} (nodup : (members.map Prod.fst).Nodup)
      (kind : members.lookup "type" = some (.ofNat Push.dataKind))
      (state : members.lookup "state" = none ∨ ∃ n, members.lookup "state" = some (.ofUInt64 n))
      (data : members.lookup "data" = some (.array items)) : BringsData items (.object members)
  | positional (state : UInt64) :
      BringsData items (.array [.ofNat Push.dataKind, .ofUInt64 state, .array items])

/-- In either form the fields are found. -/
theorem BringsData.exists_parts (h : BringsData items payload) :
    ∃ p, Reader.parts ["type", "state", "data"] payload.depth (Node.ofValue payload) = some p ∧
      p.get? "type" = some (Node.ofValue (.ofNat Push.dataKind)) ∧
      (p.get? "state" = none ∨ ∃ n, p.get? "state" = some (Node.ofValue (.ofUInt64 n))) ∧
      p.get? "data" = some (Node.ofValue (.array items)) ∧
      (Value.array items).depth ≤ p.levels := by
  cases h with
  | @object members nodup kind state data =>
    obtain ⟨p, hparts, hlevels, hget⟩ :=
      Reader.exists_parts_lookup ["type", "state", "data"] nodup (Value.membersDepth members)
    have hstate : p.get? "state" = none ∨
        ∃ n, p.get? "state" = some (Node.ofValue (.ofUInt64 n)) := by
      rw [hget "state" (by decide)]
      exact state.imp (congrArg _) fun ⟨n, hn⟩ => ⟨n, congrArg _ hn⟩
    obtain ⟨before, after, hmembers, -⟩ := List.lookup_eq_some_iff.mp data
    have hdepth : (Value.array items).depth ≤ Value.membersDepth members :=
      Value.depth_le_membersDepth (hmembers ▸ List.mem_append_right _ List.mem_cons_self)
    refine ⟨p, hparts, ?_, hstate, ?_, hlevels ▸ hdepth⟩
    · rw [hget "type" (by decide), kind, Option.map_some]
    · rw [hget "data" (by decide), data, Option.map_some]
  | positional state =>
    refine ⟨_, Reader.parts_array _ _ _, rfl, .inr ⟨state, rfl⟩, rfl, ?_⟩
    exact Value.depth_le_itemsDepth (by simp)

namespace Channel

def target : Channel → String
  | transfers => Batch.transfersTarget
  | updates => Batch.updatesTarget

def record? : Channel → Value → Option Record
  | transfers, v => (Reader.ofValue? Reader.transferRecord v).map .transfer
  | updates, v => (Reader.ofValue? Reader.updateRecord v).map .update

def event? (c : Channel) (v : Value) : Option Event := (c.record? v).bind Record.event?

end Channel

namespace Batch

section Reading

theorem natBelow_dataKind (levels : Nat) :
    Reader.natBelow 256 levels (Node.ofValue (.ofNat Push.dataKind)) = some Push.dataKind := rfl

/-- The elements of a payload that brings data are read one by one. -/
theorem exists_push (hr : Reader.Saturates r) (h : BringsData items payload) :
    ∃ state, Reader.ofValue? (pushReader r) payload =
      (items.mapM (Reader.ofValue? r)).map (⟨Push.dataKind, state, ·⟩) := by
  obtain ⟨p, hparts, hkind, hstate, hdata, hdepth⟩ := h.exists_parts
  obtain ⟨state, hstate⟩ : ∃ state, p.withDefault "state" 0 Reader.uint64 = some state := by
    rcases hstate with hnone | ⟨n, hn⟩
    · exact ⟨0, Reader.Parts.withDefault_of_none hnone 0 _⟩
    · exact ⟨n, (Reader.Parts.withDefault_of_get? hn 0 _).trans (Reader.uint64_ofValue n _)⟩
  refine ⟨state, ?_⟩
  rw [Reader.ofValue?, pushReader, hparts]
  simp only [Option.bind_eq_bind, Option.bind_some, Reader.Parts.required_of_get? hkind,
    natBelow_dataKind, hstate, Reader.Parts.withDefault_of_get? hdata, hr.list_ofValue hdepth]
  cases items.mapM (Reader.ofValue? r) <;> rfl

theorem records_eq (hr : Reader.Saturates r) (h : BringsData items payload) :
    records r payload = (items.mapM (Reader.ofValue? r)).getD [] := by
  obtain ⟨state, hpush⟩ := exists_push hr h
  rw [records, hpush]
  cases items.mapM (Reader.ofValue? r) with
  | none => rfl
  | some data => exact if_pos rfl

/-- The records of a payload that brings data are its elements, or none if one is no record. -/
theorem map_records (hr : Reader.Saturates r) (h : BringsData items payload) (f : α → Record) :
    (records r payload).map f = (items.mapM fun v => (Reader.ofValue? r v).map f).getD [] := by
  rw [records_eq hr h, mapM_eq_ite, mapM_eq_ite]
  simp only [Option.isSome_map]
  split
  · rw [Option.getD_some, Option.getD_some, List.map_filterMap]
  · rfl

/-- The content of a batch: its elements if all of them are records, else nothing. -/
theorem content_decode (c : Channel) (h : BringsData items payload) (rest : List Value) :
    (decode c.target (payload :: rest)).content = (items.mapM c.record?).getD [] := by
  cases c with
  | transfers =>
    have hcontent : (decode transfersTarget (payload :: rest)).content =
        (records Reader.transferRecord payload).map .transfer := by
      rw [decode, if_pos rfl]
      cases records Reader.transferRecord payload <;> rfl
    exact hcontent.trans (map_records Reader.saturates_transferRecord h _)
  | updates =>
    have hother : updatesTarget ≠ transfersTarget := by decide
    have hcontent : (decode updatesTarget (payload :: rest)).content =
        (records Reader.updateRecord payload).map .update := by
      rw [decode, if_neg hother, if_pos rfl]
      cases records Reader.updateRecord payload <;> rfl
    exact hcontent.trans (map_records Reader.saturates_updateRecord h _)

end Reading

/-- A hub pushes elements of which some are records of its channel, some bring no event, and some
are nothing of the kind. If each of them is a record, the batch brings the events of those that
have one, in order, so that a record without an event loses nothing but itself. If one of them is
no record, the whole batch is passed over. So the batch brings the events of its good records if
and only if every element is a record or none of them has an event. -/
theorem good_records_kept_iff (c : Channel) (h : BringsData items payload) (rest : List Value) :
    let batch := decode c.target (payload :: rest)
    let good := items.filterMap c.event?
    ((∀ v ∈ items, (c.record? v).isSome) →
      batch.content = items.filterMap c.record? ∧ batch.events = good) ∧
    ((∃ v ∈ items, c.record? v = none) → batch.content = [] ∧ batch.events = []) ∧
    (batch.events = good ↔ (∀ v ∈ items, (c.record? v).isSome) ∨ good = []) := by
  intro batch good
  have hcontent : batch.content = (items.mapM c.record?).getD [] := content_decode c h rest
  have hevents : batch.events = batch.content.filterMap Record.event? :=
    batch.filterMap_event?_content.symm
  have hgood : (items.filterMap c.record?).filterMap Record.event? = good :=
    List.filterMap_filterMap
  rw [mapM_eq_ite] at hcontent
  by_cases hall : ∀ v ∈ items, (c.record? v).isSome
  · rw [if_pos hall, Option.getD_some] at hcontent
    have hkept : batch.events = good := by rw [hevents, hcontent, hgood]
    refine ⟨fun _ => ⟨hcontent, hkept⟩, fun ⟨v, hv, hnone⟩ => ?_, fun _ => .inl hall,
      fun _ => hkept⟩
    have hsome := hall v hv
    rw [hnone] at hsome
    cases hsome
  · rw [if_neg hall, Option.getD_none] at hcontent
    have hlost : batch.events = [] := by rw [hevents, hcontent, List.filterMap_nil]
    refine ⟨fun h => absurd h hall, fun _ => ⟨hcontent, hlost⟩,
      fun h => .inr (h.symm.trans hlost), ?_⟩
    rintro (h | h)
    · exact absurd h hall
    · exact hlost.trans h.symm

/-- A transfer is lost with the `null` beside it, and kept where it stands alone. -/
theorem good_records_kept_iff_spoiled :
    let good : Value := .object [("id", .ofUInt64 1), ("level", .ofUInt64 2),
      ("timestamp", .text "2023-05-01T12:00:00Z"),
      ("token", .object [("contract", .object [("address", .text "KT1")]), ("tokenId", .text "7")])]
    let payload (items : List Value) : Value :=
      .object [("data", .array items), ("type", .ofNat Push.dataKind)]
    ∃ e, Channel.event? .transfers good = some e ∧
      (decode Channel.transfers.target [payload [good]]).events = [e] ∧
      (decode Channel.transfers.target [payload [good, .null]]).events = [] := by
  intro good payload
  have hkeys : ["data", "type"].Nodup := by decide
  have brings (items : List Value) : BringsData items (payload items) :=
    .object hkeys rfl (.inl rfl) rfl
  obtain ⟨e, he⟩ : ∃ e, Channel.event? .transfers good = some e := ⟨_, rfl⟩
  obtain ⟨hkept, -⟩ := good_records_kept_iff .transfers (brings [good]) []
  obtain ⟨-, hlost, -⟩ := good_records_kept_iff .transfers (brings [good, .null]) []
  have hrecord : (Channel.record? .transfers good).isSome := rfl
  have hnull : Channel.record? .transfers .null = none := rfl
  refine ⟨e, he, ?_, ?_⟩
  · rw [(hkept (List.forall_mem_singleton.mpr hrecord)).2, List.filterMap_cons_some he]
    rfl
  · exact (hlost ⟨.null, List.mem_cons_of_mem _ (List.mem_singleton_self _), hnull⟩).2

end Batch
end Tezos
end TokenWatch
