import TokenWatch.Proofs.Config.Validity
import TokenWatch.Proofs.Ethereum.Spacing

/-!
A configuration is loaded from exactly the valid files. It says what the file says, derives what the
file leaves out, and no Ethereum watcher with it calls for a subscription again without waiting.
-/
namespace TokenWatch.Config
open Url

section Values

structure ProcessorSection.Gives (s : ProcessorSection) (p : Processor) : Prop where
  endpoint : p.endpoint = s.endpoint
  requestTimeout : p.requestTimeout = s.requestTimeout

structure EthereumSection.Gives (s : EthereumSection) (e : Ethereum) : Prop where
  wsUrl : e.wsUrl = s.wsUrl
  rpcUrl : s.rpcUrl = some e.rpcUrl ∨ s.rpcUrl = none ∧ e.rpcUrl = s.wsUrl
  rpcTimeout : e.rpcTimeout = s.rpcTimeout
  reconnect : e.reconnect = s.reconnect

structure TezosSection.Gives (s : TezosSection) (t : Tezos) : Prop where
  apiUrl : t.apiUrl = s.apiUrl
  hubUrl : s.hubUrl = some t.hubUrl ∨
    s.hubUrl = none ∧ s.apiUrl.directory.join "v1/ws" = .ok t.hubUrl
  checkpointKey : t.checkpointKey = s.checkpointKey
  connectTimeout : t.connectTimeout = s.connectTimeout
  requestTimeout : t.requestTimeout = s.requestTimeout

structure BitmarkSection.Gives (s : BitmarkSection) (b : Bitmark) : Prop where
  databaseUrl : b.databaseUrl = s.databaseUrl
  listenChannel : b.listenChannel = s.listenChannel
  apiUrl : b.apiUrl = s.apiUrl
  requestTimeout : b.requestTimeout = s.requestTimeout

/-- The configuration has the sections of the file and no other. -/
structure File.Gives (f : File) (w : Watchers) : Prop where
  processor : f.processor.Gives w.processor
  ethereum : Option.Rel EthereumSection.Gives f.ethereum w.ethereum
  tezos : Option.Rel TezosSection.Gives f.tezos w.tezos
  bitmark : Option.Rel BitmarkSection.Gives f.bitmark w.bitmark

section Options

variable {α β : Type} {r : α → β → Prop} {o : Option α} {p : Option β} {g : α → β} {s : α} {t : β}

theorem rel_map (each : ∀ s, r s (g s)) (o : Option α) : Option.Rel r o (o.map g) := by
  cases o with
  | none => exact .none
  | some s => exact .some (each s)

theorem isSome_of_rel (h : Option.Rel r o p) : p.isSome = o.isSome := by
  cases h <;> rfl

theorem exists_of_rel (h : Option.Rel r o p) (hs : s ∈ o) : ∃ t ∈ p, r s t := by
  cases h with
  | none => cases hs
  | some hst => exact ⟨_, rfl, Option.mem_some.mp hs ▸ hst⟩

theorem exists_of_rel' (h : Option.Rel r o p) (ht : t ∈ p) : ∃ s ∈ o, r s t := by
  cases h with
  | none => cases ht
  | some hst => exact ⟨_, rfl, Option.mem_some.mp ht ▸ hst⟩

end Options

variable {f : File} {w : Watchers}

theorem gives_processor (s : ProcessorSection) : s.Gives (.ofSection s) := ⟨rfl, rfl⟩

theorem gives_ethereum (s : EthereumSection) : s.Gives (.ofSection s) where
  wsUrl := rfl
  rpcUrl := by
    cases hrpc : s.rpcUrl with
    | some url => exact .inl (by simp [Ethereum.ofSection, hrpc])
    | none => exact .inr ⟨rfl, by simp [Ethereum.ofSection, hrpc]⟩
  rpcTimeout := rfl
  reconnect := rfl

theorem gives_bitmark (s : BitmarkSection) : s.Gives (.ofSection s) := ⟨rfl, rfl, rfl, rfl⟩

/-- Only the hub's address can be missing. -/
theorem tezos_ends (s : TezosSection) : Ends (Tezos.ofSection s) s.Gives s.Has := by
  unfold Tezos.ofSection
  cases hhub : s.hubUrl with
  | some url => exact ⟨rfl, .inl hhub, rfl, rfl, rfl⟩
  | none =>
    have hderive : deriveHubUrl s.apiUrl = s.apiUrl.directory.join "v1/ws" := rfl
    rw [Option.elim_none, hderive]
    cases hjoin : s.apiUrl.directory.join "v1/ws" with
    | ok url => exact ⟨rfl, .inr ⟨hhub, hjoin⟩, rfl, rfl, rfl⟩
    | error cause => exact .apiUrl hhub hjoin

theorem mapM_ends {α β : Type} {g : α → Except Flaw β} {r : α → β → Prop} {bad : α → Flaw → Prop}
    {wrong : Flaw → Prop} (each : ∀ s, Ends (g s) (r s) (bad s)) (o : Option α)
    (h : ∀ s ∈ o, ∀ e, bad s e → wrong e) : Ends (o.mapM g) (Option.Rel r o) wrong := by
  cases o with
  | none => exact .none
  | some s =>
    rw [Option.mapM_some, map_eq_pure_bind]
    apply ((each s).imp (fun _ => id) (h s rfl)).bind
    intro t ht
    exact Option.Rel.some ht

theorem build_ends (f : File) : Ends (Watchers.build f) f.Gives f.Has := by
  have hbuild : Watchers.build f = f.tezos.mapM Tezos.ofSection >>= fun tezos =>
      .ok ⟨.ofSection f.processor, f.ethereum.map .ofSection, tezos,
        f.bitmark.map .ofSection⟩ := by
    unfold Watchers.build
    cases f.tezos.mapM Tezos.ofSection <;> rfl
  rw [hbuild]
  apply (mapM_ends tezos_ends f.tezos fun s hs e => File.Has.tezos hs).bind
  intro tezos htezos
  exact ⟨gives_processor _, rel_map gives_ethereum _, htezos, rel_map gives_bitmark _⟩

/-- A file that leads to a configuration is valid: where the hub is not named it was found. -/
theorem File.Gives.isValid (h : f.Gives w) (checked : f.IsChecked) : f.IsValid where
  present := checked.present
  ethereum := checked.ethereum
  tezos s hs := by
    refine ⟨checked.checkpointKey s hs, ?_⟩
    obtain ⟨t, -, gives⟩ := exists_of_rel h.tezos hs
    rcases gives.hubUrl with hnamed | ⟨-, hfound⟩
    · exact .inl (hnamed ▸ rfl)
    · exact .inr ((exists_hub_iff s.apiUrl).mp ⟨_, hfound⟩)
  bitmark := checked.bitmark

theorem ofFile_ends (f : File) :
    Ends (Watchers.ofFile f) (fun w => f.IsValid ∧ f.Gives w) f.Has := by
  have hfile : Watchers.ofFile f = validate f >>= fun _ => Watchers.build f := by
    unfold Watchers.ofFile
    cases validate f <;> rfl
  rw [hfile]
  apply (validate_ends f).bind
  intro _ checked
  exact (build_ends f).imp (fun _ gives => ⟨gives.isValid checked, gives⟩) (fun _ => id)

end Values

section Loading

variable {f : File} {text : List Char}

/-- A file is valid and leads to a configuration, or it has the flaw that is reported. -/
theorem ofText_ends (h : File.ofText? text = some f) :
    Ends (Watchers.ofText text) (fun w => f.IsValid ∧ f.Gives w)
      (fun e => ∃ flaw, e = .invalid flaw ∧ f.Has flaw) := by
  unfold Watchers.ofText
  rw [h]
  rcases (ofFile_ends f).cases with ⟨w, hfile, hw⟩ | ⟨flaw, hfile, hflaw⟩
  · simp only [hfile]
    exact hw
  · simp only [hfile]
    exact ⟨flaw, rfl, hflaw⟩

/-- The watchers that run are named in a fixed order. -/
theorem enabled_spec (w : Watchers) :
    w.enabled.Sublist ["ethereum", "tezos", "bitmark"] ∧
    ("ethereum" ∈ w.enabled ↔ w.ethereum.isSome) ∧ ("tezos" ∈ w.enabled ↔ w.tezos.isSome) ∧
      ("bitmark" ∈ w.enabled ↔ w.bitmark.isSome) := by
  unfold Watchers.enabled
  generalize w.ethereum.isSome = ethereum, w.tezos.isSome = tezos, w.bitmark.isSome = bitmark
  revert ethereum tezos bitmark
  decide

open TokenWatch.Ethereum (Watcher)
open TokenWatch.Ethereum.Watcher (Apart unbroken start)

/-- A text that can be read as a file leads to a configuration if and only if the file is valid; if
it is not, a flaw that it has is reported. The configuration has the sections of the file, whose
names are listed in a fixed order, with the same values; blocks are looked up where the logs come
from and the hub is below the explorer's address unless the file says otherwise. Whatever the other
values of the schedule, no delay is below the initial one, which is positive, and so far apart are
any two calls of an Ethereum watcher between which no change is seen that does not mean to stop.
Where the channel is only used to stop, these are all its calls. -/
theorem loads_exactly_valid_files (h : File.ofText? text = some f) :
    ((∃ w, Watchers.ofText text = .ok w) ↔ f.IsValid) ∧
    (¬f.IsValid → ∃ flaw, Watchers.ofText text = .error (.invalid flaw) ∧ f.Has flaw) ∧
    ∀ w, Watchers.ofText text = .ok w →
      f.Gives w ∧ w.enabled.Sublist ["ethereum", "tezos", "bitmark"] ∧
      ("ethereum" ∈ w.enabled ↔ f.ethereum.isSome) ∧ ("tezos" ∈ w.enabled ↔ f.tezos.isSome) ∧
      ("bitmark" ∈ w.enabled ↔ f.bitmark.isSome) ∧
      ∀ e ∈ w.ethereum,
        let retry := e.reconnect
        let initial := retry.initialMillis.toNat
        0 < initial ∧ (∀ n, initial ≤ retry.delay n) ∧
        ∀ value as v, Run Watcher.step? Anything (start retry (.start value)) as v →
          Apart initial (unbroken ((start retry (.start value)).course as)) ∧
          (.send false ∉ as → Apart initial v.calls) := by
  have hends := ofText_ends h
  refine ⟨⟨fun ⟨w, hw⟩ => (hends.of_ok hw).1, fun valid => ?_⟩, fun invalid => ?_, fun w hw => ?_⟩
  · rcases hends.cases with ⟨w, hw, -⟩ | ⟨_, -, flaw, -, hflaw⟩
    · exact ⟨w, hw⟩
    · exact absurd valid hflaw.not_isValid
  · rcases hends.cases with ⟨w, -, valid, -⟩ | ⟨_, herror, flaw, rfl, hflaw⟩
    · exact absurd valid invalid
    · exact ⟨flaw, herror, hflaw⟩
  · obtain ⟨valid, gives⟩ := hends.of_ok hw
    obtain ⟨horder, hethereum, htezos, hbitmark⟩ := enabled_spec w
    rw [isSome_of_rel gives.ethereum] at hethereum
    rw [isSome_of_rel gives.tezos] at htezos
    rw [isSome_of_rel gives.bitmark] at hbitmark
    refine ⟨gives, horder, hethereum, htezos, hbitmark, fun e he => ?_⟩
    obtain ⟨s, hs, hse⟩ := exists_of_rel' gives.ethereum he
    intro retry initial
    have hpositive : 0 < initial := by
      have hdelay := (valid.ethereum s hs).initialDelay
      rwa [← hse.reconnect] at hdelay
    exact ⟨hpositive, retry.initial_le_delay, fun value as v run =>
      ⟨Watcher.apart_of_run run, Watcher.calls_apart_of_run run⟩⟩

/-- The longest delay and the factor of the schedule are zero, and both addresses are derived. -/
theorem loads_exactly_valid_files_derived :
    let text := "processor.endpoint = 'http://gw'
ethereum.ws_url = 'ws://node'
ethereum.reconnect = \x7b initial_delay = 250, max_delay = 0, multiplier = 0 \x7d
tezos.api_url = 'http://tzkt/api'"
    ∃ w e t, Watchers.ofText text.toList = .ok w ∧ e ∈ w.ethereum ∧ t ∈ w.tezos ∧
      w.bitmark.isSome = false ∧ e.rpcUrl = "ws://node" ∧ (∀ n, 250 ≤ e.reconnect.delay n) ∧
      t.checkpointKey = standardKey ∧ t.hubUrl.toText = "http://tzkt/api/v1/ws" := by
  intro text
  let web (host : String) (path : List String) : Url :=
    ⟨"http", "", "", some (.name host), none, .segments path, none, none⟩
  let ethereum : EthereumSection := ⟨"ws://node", none, 10, ⟨250, 0, 0⟩⟩
  let tezos : TezosSection := ⟨web "tzkt" ["api"], none, standardKey, 10, 10⟩
  let f : File := ⟨⟨web "gw" [""], 10⟩, some ethereum, some tezos, none⟩
  have hread : File.ofText? text.toList = some f := by decide +kernel
  have hvalid : f.IsValid := by
    refine ⟨.inl rfl, ?_, ?_, nofun⟩ <;> rintro s ⟨⟩
    · exact ⟨fun blank => absurd (blank 'w' (by decide)) (by decide), by decide⟩
    · have hjoin : tezos.apiUrl.join "v1/ws" = .ok (web "tzkt" ["v1", "ws"]) := by decide +kernel
      exact ⟨fun blank => absurd (blank 't' (by decide)) (by decide), .inr ⟨_, hjoin⟩⟩
  obtain ⟨accepts, -, loads⟩ := loads_exactly_valid_files hread
  obtain ⟨w, hw⟩ := accepts.mpr hvalid
  obtain ⟨gives, -, -, -, -, patient⟩ := loads w hw
  obtain ⟨e, he, hethereum⟩ := exists_of_rel gives.ethereum rfl
  obtain ⟨t, ht, htezos⟩ := exists_of_rel gives.tezos rfl
  obtain ⟨-, hdelay, -⟩ := patient e he
  rw [hethereum.reconnect] at hdelay
  have hrpc : e.rpcUrl = "ws://node" := (hethereum.rpcUrl.resolve_left nofun).2
  obtain ⟨-, hhub⟩ := htezos.hubUrl.resolve_left nofun
  have hderived : tezos.apiUrl.directory.join "v1/ws" = .ok (web "tzkt" ["api", "v1", "ws"]) := by
    decide +kernel
  have hurl : t.hubUrl = web "tzkt" ["api", "v1", "ws"] := Except.ok.inj (hhub.symm.trans hderived)
  refine ⟨w, e, t, hw, he, ht, isSome_of_rel gives.bitmark, hrpc, ?_, htezos.checkpointKey, ?_⟩
  · exact hethereum.reconnect ▸ hdelay
  · rw [hurl]
    decide +kernel

end Loading
end TokenWatch.Config
