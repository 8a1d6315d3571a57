import TokenWatch.Config.Watchers
import TokenWatch.EventProcessor
import TokenWatch.Proofs.Time.Rfc3339
import TokenWatch.Proofs.Url.Directory
import TokenWatch.Tezos.Explorer

/-!
The addresses that are asked below a base: each is the base as a directory and a path below it, and
nothing of the base is lost but its query and fragment.
-/
namespace TokenWatch
open Url Time Text

/-- The paths that are asked for below a base: where events are sent to, what is known of a level
and of the time at which it was the last one, and the hub. -/
inductive IsEndpoint : String → Prop where
  | events : IsEndpoint EventProcessor.eventsPath
  | transfers : IsEndpoint Tezos.Explorer.transfersPath
  | updates : IsEndpoint Tezos.Explorer.updatesPath
  | level (moment : Moment) : IsEndpoint (Tezos.Explorer.levelPath moment)
  | hub : IsEndpoint Config.hubPath

variable {u : Url} {c : Char} {text path : String}

section Paths

theorem plain_of_isStampPart (h : Rfc3339.IsStampPart c) :
    pathSet c = false ∧ c ≠ '/' ∧ c ≠ '\\' := by
  rcases h with hdigit | hmark
  · have hvalue : hexValue? c = some (c.toNat - '0'.toNat) := by rw [hexValue?, if_pos hdigit]
    refine ⟨sparesDigits_pathSet.2 c _ hvalue, ?_, ?_⟩ <;> rintro rfl <;>
      exact absurd hdigit (by decide)
  · have hall : ∀ c ∈ ['-', 'T', ':', '.', 'Z', '+'], pathSet c = false ∧ c ≠ '/' ∧ c ≠ '\\' :=
      List.all_iff_forall_prop.mp (by decide)
    exact hall c hmark

/-- A moment is a segment, for all its colons. -/
theorem isSegment_moment (m : Moment) : IsSegment m.toText := by
  obtain ⟨c, rest, htext, hdigit⟩ := Rfc3339.exists_format_eq_cons m
  have hhead : c ≠ '.' ∧ c ≠ '%' := by
    constructor <;> rintro rfl <;> exact absurd hdigit (by decide)
  obtain ⟨hhere, hback⟩ := no_dots_of_head hhead.1 hhead.2 rest
  refine ⟨fun d hd => ?_, ?_, ?_⟩
  · rw [Moment.toText, String.toList_ofList] at hd
    exact plain_of_isStampPart (Rfc3339.stampParts_format m d hd)
  · rw [Moment.toText, String.toList_ofList, htext, hhere]
  · rw [Moment.toText, String.toList_ofList, htext, hback]

theorem IsEndpoint.exists_segments (h : IsEndpoint path) :
    ∃ segments, path.toList = relativeText segments ∧ Descends segments := by
  cases h with
  | events => exact ⟨["v1", "events"], rfl, descends_version (by decide)⟩
  | transfers => exact ⟨["v1", "tokens", "transfers"], rfl, descends_version (by decide)⟩
  | updates => exact ⟨["v1", "bigmaps", "updates"], rfl, descends_version (by decide)⟩
  | level moment =>
    have htext : (Tezos.Explorer.levelPath moment).toList =
        relativeText ["v1", "blocks", moment.toText, "level"] := by
      simp [Tezos.Explorer.levelPath, relativeText]
    have hsegments : ∀ s ∈ ["blocks", moment.toText, "level"], IsSegment s :=
      List.forall_mem_cons.mpr ⟨by decide, List.forall_mem_cons.mpr
        ⟨isSegment_moment moment, by decide⟩⟩
    exact ⟨_, htext, descends_version hsegments⟩
  | hub => exact ⟨["v1", "ws"], rfl, descends_version (by decide)⟩

end Paths

section Addresses

/-- An endpoint is reached from a base by nothing but a longer path, and the query and fragment of
the base are left out. -/
theorem exists_address (h : u.IsNormal) (he : IsEndpoint path) :
    ∃ v, u.directory.join path = .ok v ∧ v.IsNormal ∧
      v = { u with path := v.path, query := none, fragment := none } ∧
      v.path.toText = u.directory.path.toText ++ path.toList := by
  obtain ⟨list, hpath, -⟩ := h.path
  obtain ⟨front, hdirectory, -⟩ := exists_directory hpath
  obtain ⟨segments, htext, hsegments⟩ := he.exists_segments
  have hnormal := h.directory
  rw [hdirectory] at hnormal ⊢
  obtain ⟨list', hlist, -, hwhole⟩ := hnormal.path
  obtain rfl := Path.segments.inj hlist
  have hfront : ∀ s ∈ front, IsSegment s := (List.forall_mem_append.mp hwhole).1
  refine ⟨_, hsegments.join hnormal rfl htext, ?_, rfl, ?_⟩
  · refine ⟨h.special, h.web, h.authority, ⟨_, rfl, ?_, ?_⟩, nofun, nofun⟩
    · exact List.append_ne_nil_of_right_ne_nil _ hsegments.ne_nil
    · exact List.forall_mem_append.mpr ⟨hfront, hsegments.segment⟩
  · rw [htext]
    exact toText_descent hsegments.ne_nil front

/-- A base as a directory is the base with at most one slash more, at the end of its path, and it is
that of itself. An endpoint below it has the path of the directory followed by its own, at the same
server and for the same user, with neither query nor fragment, and its text is read as the same
address. It is the same address for one who keeps the base as a directory and for one who makes it
one first. -/
theorem endpoints_stay_below (h : Url.parse text = .ok u) (web : u.scheme ∈ ["http", "https"]) :
    let base := u.directory
    base = { u with path := base.path } ∧ base.path.toText.getLast? = some '/' ∧
    (u.path.toText.getLast? = some '/' → base = u) ∧
    (u.path.toText.getLast? ≠ some '/' →
      base.path = readRootPath u.scheme (u.path.toText ++ ['/']) ∧
        base.path.toText = u.path.toText ++ ['/']) ∧
    base.directory = base ∧
    ∀ path, IsEndpoint path → ∃ v, base.join path = .ok v ∧ base.endpoint path = .ok v ∧
      u.endpoint path = .ok v ∧ Url.parse v.toText = .ok v ∧
      v = { u with path := v.path, query := none, fragment := none } ∧
      v.path.toText = base.path.toText ++ path.toList := by
  intro base
  have hschemes : ∀ s ∈ ["http", "https"], isSpecialScheme s = true ∧ s ≠ "file" := by decide
  obtain ⟨special, hfile⟩ := hschemes _ web
  have normal : u.IsNormal := isNormal_of_parse h special hfile
  obtain ⟨list, hpath, -⟩ := normal.path
  obtain ⟨front, hbase, -⟩ := exists_directory hpath
  obtain ⟨hclosed, hopen⟩ := normal.directory_eq
  have hagain : base.directory = base := directory_directory hpath
  refine ⟨?_, ?_, hclosed, fun hno => ?_, hagain, fun path he => ?_⟩
  · simp only [base, hbase]
  · simp only [base, hbase, toText_concat_empty, List.getLast?_concat]
  · obtain ⟨heq, htext⟩ := hopen hno
    exact ⟨congrArg Url.path heq, htext⟩
  · obtain ⟨v, hjoin, hnormal, hv, htext⟩ := exists_address normal he
    have hkept : base.endpoint path = .ok v := by rw [endpoint, hagain, hjoin]
    exact ⟨v, hjoin, hkept, hjoin, hnormal.parse_toText, hv, htext⟩

/-- A base with a path, a query and a fragment, and the colons of a moment. -/
theorem endpoints_stay_below_level :
    ∃ u v, Url.parse "https://user@gw.example:8443/tzkt%20api?key=1#top" = .ok u ∧
      u.directory.join "v1/blocks/2023-05-01T12:00:00Z/level" = .ok v ∧
      v.path.toText = "/tzkt%20api/v1/blocks/2023-05-01T12:00:00Z/level".toList ∧
      v.port = some 8443 ∧ v.query = none ∧ v.fragment = none := by
  let u : Url :=
    ⟨"https", "user", "", some (.name "gw.example"), some 8443, .segments ["tzkt%20api"],
      some "key=1", some "top"⟩
  let moment : Moment :=
    ⟨⟨2023, 5, 1, by decide⟩, ⟨12, 0, 0, 0, by decide⟩, 0, by decide⟩
  have hparse : Url.parse "https://user@gw.example:8443/tzkt%20api?key=1#top" = .ok u := by
    decide +kernel
  have hlevel : Tezos.Explorer.levelPath moment = "v1/blocks/2023-05-01T12:00:00Z/level" := by
    decide +kernel
  obtain ⟨-, -, -, -, -, hendpoints⟩ := endpoints_stay_below hparse (by decide)
  obtain ⟨v, hjoin, -, -, -, hv, htext⟩ := hendpoints _ (.level moment)
  rw [hlevel] at hjoin htext
  refine ⟨u, v, hparse, hjoin, htext.trans (by decide +kernel), ?_, ?_, ?_⟩
  · rw [hv]
  · rw [hv]
  · rw [hv]

end Addresses
end TokenWatch
