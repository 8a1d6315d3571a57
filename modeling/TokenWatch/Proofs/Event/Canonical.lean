import TokenWatch.Event.Basic

/-!
The model that the events of all chains keep to, whoever reports them.
-/
namespace TokenWatch

theorem Chain.eq_ethereum_of_isZeroAddress {c : Chain} {address : String}
    (h : c.isZeroAddress address = true) : c = .ethereum := by
  cases c with
  | ethereum => rfl
  | tezos | bitmark => cases h

namespace EventKind

variable {chain : Chain} {target : String}

theorem derive_of_zero_source {source : String} (h : chain.isZeroAddress source = true) :
    derive chain (some source) target = mint := if_pos h

theorem derive_of_zero_target {source : String} (h : chain.isZeroAddress source = false)
    (htarget : chain.isZeroAddress target = true) : derive chain (some source) target = burned := by
  simp only [derive, h, htarget, if_true, Bool.false_eq_true, if_false]

theorem derive_of_parties {source : String} (h : chain.isZeroAddress source = false)
    (htarget : chain.isZeroAddress target = false) :
    derive chain (some source) target = transfer := by
  simp only [derive, h, htarget, Bool.false_eq_true, if_false]

end EventKind

namespace Event

variable {e : Event} {chain : Chain} {t : Transfer}

/-- What holds of every event, of whatever kind and chain. -/
structure IsCanonical (e : Event) : Prop where
  mint : e.kind = .mint → e.source = ""
  burned : e.kind = .burned ↔ e.chain = .ethereum ∧ e.source ≠ "" ∧
    e.chain.isZeroAddress e.source = false ∧ e.chain.isZeroAddress e.target = true
  transfer : e.kind = .transfer →
    e.chain.isZeroAddress e.source = false ∧ e.chain.isZeroAddress e.target = false
  tokenUpdated : e.kind = .tokenUpdated →
    e.chain = .tezos ∧ e.source = "" ∧ e.target = "" ∧ e.index = 0
  level : e.level.isSome ↔ e.chain = .tezos
  bitmark : e.chain = .bitmark → e.contract = "" ∧ (e.kind = .mint ∨ e.kind = .transfer)

theorem kind_ofTransfer (chain : Chain) (t : Transfer) :
    (ofTransfer chain t).kind = EventKind.derive chain t.source t.target := rfl

theorem source_of_mint (h : EventKind.derive chain t.source t.target = .mint) :
    (ofTransfer chain t).source = "" := if_pos h

theorem source_of_not_mint {source : String} (hsource : t.source = some source)
    (h : EventKind.derive chain t.source t.target ≠ .mint) :
    (ofTransfer chain t).source = source := by
  have hkept : (ofTransfer chain t).source = t.source.getD "" := if_neg h
  rw [hkept, hsource, Option.getD_some]

/-- A change of ownership has a canonical event if it has a level exactly on Tezos, names a contract
only where there are contracts, and does not leave the source on Ethereum blank. -/
theorem isCanonical_ofTransfer (level : t.level.isSome ↔ chain = .tezos)
    (contract : chain = .bitmark → t.contract = "")
    (source : chain = .ethereum → t.source ≠ some "") : (ofTransfer chain t).IsCanonical := by
  have hkind := kind_ofTransfer chain t
  have hmint : (ofTransfer chain t).kind = .mint →
      (ofTransfer chain t).IsCanonical := by
    intro h
    have hblank := source_of_mint (hkind.symm.trans h)
    refine ⟨fun _ => hblank, ?_, by rw [h]; nofun, by rw [h]; nofun, level, ?_⟩
    · rw [h, hblank]
      exact ⟨nofun, fun hburned => absurd rfl hburned.2.1⟩
    · exact fun hbitmark => ⟨contract hbitmark, .inl h⟩
  cases hs : t.source with
  | none => exact hmint (by rw [hkind, hs]; rfl)
  | some s =>
    cases hzero : chain.isZeroAddress s with
    | true => exact hmint (by rw [hkind, hs, EventKind.derive_of_zero_source hzero])
    | false =>
      cases htarget : chain.isZeroAddress t.target with
      | true =>
        have h : (ofTransfer chain t).kind = .burned := by
          rw [hkind, hs, EventKind.derive_of_zero_target hzero htarget]
        have hsource := source_of_not_mint hs (by rw [← hkind, h]; nofun)
        have hchain := Chain.eq_ethereum_of_isZeroAddress htarget
        refine ⟨by rw [h]; nofun, ?_, by rw [h]; nofun, by rw [h]; nofun, level, ?_⟩
        · rw [h, hsource]
          refine ⟨fun _ => ⟨hchain, ?_, hzero, htarget⟩, fun _ => rfl⟩
          rintro rfl
          exact source hchain hs
        · intro hbitmark
          exact absurd (hchain.symm.trans hbitmark) nofun
      | false =>
        have h : (ofTransfer chain t).kind = .transfer := by
          rw [hkind, hs, EventKind.derive_of_parties hzero htarget]
        have hsource := source_of_not_mint hs (by rw [← hkind, h]; nofun)
        refine ⟨by rw [h]; nofun, ?_, ?_, by rw [h]; nofun, level, ?_⟩
        · rw [h]
          refine ⟨nofun, fun hburned => ?_⟩
          exact absurd (hburned.2.2.2.symm.trans htarget) nofun
        · intro _
          rw [hsource]
          exact ⟨hzero, htarget⟩
        · exact fun hbitmark => ⟨contract hbitmark, .inr h⟩

/-- Only Tezos reports changes of metadata. -/
theorem isCanonical_ofUpdate {u : MetadataUpdate} (level : u.level.isSome) :
    (ofUpdate .tezos u).IsCanonical := by
  refine ⟨nofun, ⟨nofun, fun hburned => ?_⟩, nofun, fun _ => ⟨rfl, rfl, rfl, rfl⟩, ?_, nofun⟩
  · exact absurd hburned.1 nofun
  · exact ⟨fun _ => rfl, fun _ => level⟩

end Event
end TokenWatch
