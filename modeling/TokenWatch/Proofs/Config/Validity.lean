import TokenWatch.Config.Watchers
import TokenWatch.Proofs.Traversal
import TokenWatch.Proofs.Url.Directory

/-!
Which configuration files are valid, what is wrong with the others, and that the checks find it.
-/
namespace TokenWatch.Config
open Text Url

section Sections

structure EthereumSection.IsValid (s : EthereumSection) : Prop where
  wsUrl : ¬IsBlank s.wsUrl
  initialDelay : 0 < s.reconnect.initialMillis.toNat

/-- The hub is named, or it can be found from the explorer's address. -/
structure TezosSection.IsValid (s : TezosSection) : Prop where
  checkpointKey : ¬IsBlank s.checkpointKey
  hub : s.hubUrl.isSome ∨ ∃ url, s.apiUrl.join "v1/ws" = .ok url

structure BitmarkSection.IsValid (s : BitmarkSection) : Prop where
  listenChannel : ¬IsBlank s.listenChannel

/-- What can be wrong with a section. -/
inductive EthereumSection.Has (s : EthereumSection) : Flaw → Prop where
  | blankWsUrl (blank : IsBlank s.wsUrl) : s.Has .blankWsUrl
  | noInitialDelay (zero : s.reconnect.initialMillis = 0) : s.Has .noInitialDelay

inductive TezosSection.Has (s : TezosSection) : Flaw → Prop where
  | blankCheckpointKey (blank : IsBlank s.checkpointKey) : s.Has .blankCheckpointKey
  | apiUrl {cause : Url.Error} (unnamed : s.hubUrl = none)
      (fails : s.apiUrl.directory.join "v1/ws" = .error cause) : s.Has (.apiUrl cause)

inductive BitmarkSection.Has (s : BitmarkSection) : Flaw → Prop where
  | blankListenChannel (blank : IsBlank s.listenChannel) : s.Has .blankListenChannel

variable {e : Flaw}

theorem EthereumSection.Has.not_isValid {s : EthereumSection} (h : s.Has e) : ¬s.IsValid := by
  intro valid
  cases h with
  | blankWsUrl blank => exact valid.wsUrl blank
  | noInitialDelay zero => exact absurd (zero ▸ valid.initialDelay) (by decide)

/-- It does not matter whether the address is made that of a directory first. -/
theorem exists_hub_iff (u : Url) :
    (∃ url, u.directory.join "v1/ws" = .ok url) ↔ ∃ url, u.join "v1/ws" = .ok url := by
  have hws : Descends ["v1", "ws"] := descends_version (by decide)
  rw [hws.exists_join_iff _ rfl, hws.exists_join_iff _ rfl, isOpaque_directory]

theorem TezosSection.Has.not_isValid {s : TezosSection} (h : s.Has e) : ¬s.IsValid := by
  intro valid
  cases h with
  | blankCheckpointKey blank => exact valid.checkpointKey blank
  | apiUrl unnamed fails =>
    rcases valid.hub with named | found
    · rw [unnamed] at named
      cases named
    · obtain ⟨url, hurl⟩ := (exists_hub_iff s.apiUrl).mpr found
      rw [fails] at hurl
      cases hurl

theorem BitmarkSection.Has.not_isValid {s : BitmarkSection} (h : s.Has e) : ¬s.IsValid := by
  intro valid
  cases h with
  | blankListenChannel blank => exact valid.listenChannel blank

end Sections

section Files

/-- At least one section is present, and all that are present are valid. -/
structure File.IsValid (f : File) : Prop where
  present : f.ethereum.isSome ∨ f.tezos.isSome ∨ f.bitmark.isSome
  ethereum : ∀ s ∈ f.ethereum, s.IsValid
  tezos : ∀ s ∈ f.tezos, s.IsValid
  bitmark : ∀ s ∈ f.bitmark, s.IsValid

inductive File.Has (f : File) : Flaw → Prop where
  | noWatcher (ethereum : f.ethereum = none) (tezos : f.tezos = none) (bitmark : f.bitmark = none) :
      f.Has .noWatcher
  | ethereum {s : EthereumSection} {e : Flaw} (present : s ∈ f.ethereum) (flaw : s.Has e) : f.Has e
  | tezos {s : TezosSection} {e : Flaw} (present : s ∈ f.tezos) (flaw : s.Has e) : f.Has e
  | bitmark {s : BitmarkSection} {e : Flaw} (present : s ∈ f.bitmark) (flaw : s.Has e) : f.Has e

variable {f : File} {e : Flaw}

theorem File.Has.not_isValid (h : f.Has e) : ¬f.IsValid := by
  intro valid
  cases h with
  | noWatcher ethereum tezos bitmark =>
    have hpresent := valid.present
    simp [ethereum, tezos, bitmark] at hpresent
  | ethereum present flaw => exact flaw.not_isValid (valid.ethereum _ present)
  | tezos present flaw => exact flaw.not_isValid (valid.tezos _ present)
  | bitmark present flaw => exact flaw.not_isValid (valid.bitmark _ present)

end Files

section Checks

theorem checkEthereum_ends (s : EthereumSection) :
    Ends (checkEthereum s) (fun _ => s.IsValid) s.Has := by
  unfold checkEthereum
  split
  · rename_i hblank
    exact .blankWsUrl hblank
  · rename_i hurl
    split
    · rename_i hzero
      exact .noInitialDelay hzero
    · rename_i hpos
      refine ⟨hurl, Nat.pos_of_ne_zero fun hzero => hpos ?_⟩
      exact UInt64.toNat_inj.mp hzero

theorem checkTezos_ends (s : TezosSection) :
    Ends (checkTezos s) (fun _ => ¬IsBlank s.checkpointKey) s.Has := by
  unfold checkTezos
  split
  · rename_i hblank
    exact .blankCheckpointKey hblank
  · rename_i hkey
    exact hkey

theorem checkBitmark_ends (s : BitmarkSection) :
    Ends (checkBitmark s) (fun _ => s.IsValid) s.Has := by
  unfold checkBitmark
  split
  · rename_i hblank
    exact .blankListenChannel hblank
  · rename_i hchannel
    exact ⟨hchannel⟩

/-- The check of a section that may be absent finds the flaws of one that is present. -/
theorem checkPresent_ends {α : Type} {check : α → Except Flaw Unit} {good : α → Prop}
    {bad : α → Flaw → Prop} {wrong : Flaw → Prop}
    (each : ∀ s, Ends (check s) (fun _ => good s) (bad s)) (o : Option α)
    (h : ∀ s ∈ o, ∀ e, bad s e → wrong e) :
    Ends (checkPresent check o) (fun _ => ∀ s ∈ o, good s) wrong := by
  cases o with
  | none => exact nofun
  | some s =>
    refine (each s).imp (fun _ hs t ht => ?_) (h s rfl)
    exact Option.mem_some.mp ht ▸ hs

/-- What the checks leave open is only whether the hub can be found. -/
structure File.IsChecked (f : File) : Prop where
  present : f.ethereum.isSome ∨ f.tezos.isSome ∨ f.bitmark.isSome
  ethereum : ∀ s ∈ f.ethereum, s.IsValid
  checkpointKey : ∀ s ∈ f.tezos, ¬IsBlank s.checkpointKey
  bitmark : ∀ s ∈ f.bitmark, s.IsValid

theorem validate_ends (f : File) : Ends (validate f) (fun _ => f.IsChecked) f.Has := by
  unfold validate
  split
  · rename_i habsent
    obtain ⟨hethereum, htezos, hbitmark⟩ := habsent
    exact .noWatcher (Option.isNone_iff_eq_none.mp hethereum)
      (Option.isNone_iff_eq_none.mp htezos) (Option.isNone_iff_eq_none.mp hbitmark)
  · rename_i hpresent
    simp only [not_and_or, Bool.not_eq_true, Option.isNone_eq_false_iff] at hpresent
    refine (checkPresent_ends checkEthereum_ends _ fun s hs e => .ethereum hs).bind
      fun _ hethereum => ?_
    refine (checkPresent_ends checkTezos_ends _ fun s hs e => .tezos hs).bind fun _ htezos => ?_
    refine (checkPresent_ends checkBitmark_ends _ fun s hs e => .bitmark hs).imp
      (fun _ hbitmark => ?_) (fun _ => id)
    exact ⟨hpresent, hethereum, htezos, hbitmark⟩

end Checks
end TokenWatch.Config
