import TokenWatch.Proofs.Url.Normal
import TokenWatch.Proofs.Url.Slashes
import TokenWatch.Url.Edit

/-!
Directories: a URL whose path ends in a slash, and what a path means that is given relative to it.
-/
namespace TokenWatch.Url
open Text

variable {u : Url} {c : Char} {cs front : List Char} {list segments : List String} {s text : String}

section Directories

/-- A path is that of a directory already, or an empty segment is put at its end. -/
theorem directory_cases (hpath : u.path = .segments list) :
    (list.getLast? = some "" ∧ u.directory = u) ∨
      (list.getLast? ≠ some "" ∧ u.directory = { u with path := .segments (list ++ [""]) }) := by
  unfold directory
  rw [hpath]
  by_cases hlast : list.getLast? = some ""
  · exact .inl ⟨hlast, if_pos hlast⟩
  · exact .inr ⟨hlast, if_neg hlast⟩

/-- The segments of a directory end with an empty one, and nothing but the path has changed. -/
theorem exists_directory (hpath : u.path = .segments list) :
    ∃ front, u.directory = { u with path := .segments (front ++ [""]) } ∧
      (list = front ++ [""] ∨ list = front) := by
  rcases directory_cases hpath with ⟨hlast, hsame⟩ | ⟨-, hadded⟩
  · obtain ⟨front, rfl⟩ := List.getLast?_eq_some_iff.mp hlast
    exact ⟨front, by rw [← hpath, hsame], .inl rfl⟩
  · exact ⟨list, hadded, .inr rfl⟩

theorem toText_concat_empty (front : List String) :
    (Path.segments (front ++ [""])).toText = (Path.segments front).toText ++ ['/'] :=
  toText_append front [""]

/-- The text of a path shows whether it is that of a directory. -/
theorem getLast?_toText_iff (nonempty : list ≠ []) (h : ∀ s ∈ list, IsSegment s) :
    (Path.segments list).toText.getLast? = some '/' ↔ list.getLast? = some "" := by
  rcases List.eq_nil_or_concat' list with rfl | ⟨front, s, rfl⟩
  · exact absurd rfl nonempty
  have hs : IsSegment s := h s (List.mem_append_right _ (List.mem_singleton_self s))
  have htext : (Path.segments (front ++ [s])).toText =
      (Path.segments front).toText ++ '/' :: s.toList := by simp [Path.toText]
  rw [htext, List.getLast?_concat, Option.some_inj]
  by_cases hempty : s = ""
  · simp [hempty]
  · obtain ⟨front', c, hconcat⟩ :=
      (List.eq_nil_or_concat' s.toList).resolve_left (mt String.toList_eq_nil_iff.mp hempty)
    have hc : c ≠ '/' := ((hs.plain c) (by simp [hconcat])).2.1
    have hlast : ((Path.segments front).toText ++ '/' :: s.toList).getLast? = some c := by
      rw [hconcat, ← List.cons_append, ← List.append_assoc]
      exact List.getLast?_concat
    rw [hlast]
    simp [hc, hempty]

theorem IsNormal.directory (h : u.IsNormal) : u.directory.IsNormal := by
  obtain ⟨list, hpath, -, hlist⟩ := h.path
  obtain ⟨front, hdirectory, hfront⟩ := exists_directory hpath
  have hsegments : ∀ s ∈ front, IsSegment s := by
    rcases hfront with rfl | rfl
    · exact (List.forall_mem_append.mp hlist).1
    · exact hlist
  rw [hdirectory]
  refine ⟨h.special, h.web, h.authority, ⟨_, rfl, List.concat_ne_nil _ _, ?_⟩, h.query, h.fragment⟩
  exact List.forall_mem_append.mpr ⟨hsegments, List.forall_mem_singleton.mpr isSegment_empty⟩

theorem isOpaque_directory (u : Url) : u.directory.isOpaque = u.isOpaque := by
  unfold directory
  split
  · rename_i hpath
    simp [isOpaque, hpath]
  · rename_i text _ hpath
    split <;> simp [isOpaque, hpath]
  · rename_i list hpath
    split <;> simp [isOpaque, hpath]

theorem directory_directory (hpath : u.path = .segments list) :
    u.directory.directory = u.directory := by
  obtain ⟨front, hdirectory, -⟩ := exists_directory hpath
  rw [hdirectory]
  rcases @directory_cases { u with path := .segments (front ++ [""]) } _ rfl with
    ⟨-, hsame⟩ | ⟨hlast, -⟩
  · exact hsame
  · exact absurd List.getLast?_concat hlast

/-- What is put behind the path of a URL to make it that of a directory is one slash, and the path
with that slash is read as it stands. -/
theorem IsNormal.directory_eq (h : u.IsNormal) :
    (u.path.toText.getLast? = some '/' → u.directory = u) ∧
    (u.path.toText.getLast? ≠ some '/' →
      u.directory = { u with path := readRootPath u.scheme (u.path.toText ++ ['/']) } ∧
        u.directory.path.toText = u.path.toText ++ ['/']) := by
  obtain ⟨list, hpath, nonempty, hlist⟩ := h.path
  have hlast := getLast?_toText_iff nonempty hlist
  rw [hpath, ne_eq, hlast]
  rcases directory_cases hpath with ⟨hclosed, hsame⟩ | ⟨hopen, hadded⟩
  · exact ⟨fun _ => hsame, fun hno => absurd hclosed hno⟩
  · refine ⟨fun hyes => absurd hyes hopen, fun _ => ?_⟩
    have hnormal := h.directory.path
    rw [hadded] at hnormal ⊢
    rw [← toText_concat_empty, readRootPath_toText h.special h.web hnormal]
    exact ⟨rfl, rfl⟩

end Directories

section Descent

def relativeText (segments : List String) : List Char :=
  ((segments.map String.toList).intersperse ['/']).flatten

/-- Segments that lead down from a directory. The first one is neither empty, which would lead to
the root, nor does it hold a colon, which could make it a scheme. -/
structure Descends (segments : List String) : Prop where
  first : ∃ s rest, segments = s :: rest ∧ s ≠ "" ∧ ':' ∉ s.toList
  segment : ∀ s ∈ segments, IsSegment s

/-- Segments behind the version of an interface lead down. -/
theorem descends_version (h : ∀ s ∈ segments, IsSegment s) : Descends ("v1" :: segments) where
  first := ⟨"v1", segments, rfl, by decide, by decide⟩
  segment := List.forall_mem_cons.mpr ⟨by decide, h⟩

theorem Descends.ne_nil (h : Descends segments) : segments ≠ [] := by
  obtain ⟨s, rest, rfl, -⟩ := h.first
  exact List.cons_ne_nil s rest

theorem cutScheme?_of_not_mem (h : ':' ∉ cs) : cutScheme? cs = none := by
  rw [cutScheme?, cutAt_of_not_mem h]

/-- A slash in front of the first colon is not part of a scheme. -/
theorem cutScheme?_of_slash (h : ':' ∉ front) (rest : List Char) :
    cutScheme? (front ++ '/' :: rest) = none := by
  by_cases hcolon : ':' ∈ rest
  · obtain ⟨before, after, rfl, hbefore⟩ := List.eq_append_cons_of_mem hcolon
    have hfront : ':' ∉ front ++ '/' :: before := by simp [h, hbefore]
    have hslash : (front ++ '/' :: before).all isSchemePart = false := by
      refine List.all_eq_false.mpr ⟨'/', by simp, by decide⟩
    rw [cutScheme?, ← List.cons_append, ← List.append_assoc, cutAt_append hfront]
    simp [hslash]
  · exact cutScheme?_of_not_mem (by simp [h, hcolon])

theorem Descends.cutScheme? (h : Descends segments) :
    cutScheme? (relativeText segments) = none := by
  obtain ⟨s, rest, rfl, -, hcolon⟩ := h.first
  cases rest with
  | nil =>
    have htext : relativeText [s] = s.toList := by simp [relativeText]
    rw [htext]
    exact cutScheme?_of_not_mem hcolon
  | cons t rest => exact cutScheme?_of_slash hcolon (relativeText (t :: rest))

theorem Descends.plain (h : Descends segments) (hc : c ∈ relativeText segments) :
    0x20 < c.toNat ∧ c ≠ '?' ∧ c ≠ '#' := by
  rcases mem_join hc with rfl | ⟨p, hp, hc⟩
  · decide
  · obtain ⟨s, hs, rfl⟩ := List.mem_map.mp hp
    exact unmarked_of_pathSet ((h.segment s hs).plain c hc).1

theorem Descends.partsOfText (h : Descends segments) :
    Parts.ofText (relativeText segments) = ⟨relativeText segments, none, none⟩ := by
  have hfragment : '#' ∉ relativeText segments := fun hmem => (h.plain hmem).2.2 rfl
  have hquery : '?' ∉ relativeText segments := fun hmem => (h.plain hmem).2.1 rfl
  rw [Parts.ofText, clean_of_visible fun c hc => (h.plain hc).1, cutAt_of_not_mem hfragment]
  simp only
  rw [cutAt_of_not_mem hquery]

/-- The first character is not a slash, so the path is not read from the root on. -/
theorem Descends.exists_cons (h : Descends segments) :
    ∃ c cs, relativeText segments = c :: cs ∧ ∀ special, isSlash special c = false := by
  obtain ⟨s, rest, rfl, hempty, -⟩ := h.first
  obtain ⟨c, cs, hcons⟩ := List.exists_cons_of_ne_nil (mt String.toList_eq_nil_iff.mp hempty)
  have hplain : c ≠ '/' ∧ c ≠ '\\' := ((h.segment s (by simp)).plain c (by simp [hcons])).2
  refine ⟨c, ?_⟩
  have hslash : ∀ special, isSlash special c = false := by simp [isSlash, hplain]
  cases rest with
  | nil => exact ⟨cs, by simp [relativeText, hcons], hslash⟩
  | cons t rest =>
    have htext : relativeText (s :: t :: rest) = c :: (cs ++ '/' :: relativeText (t :: rest)) := by
      simp [relativeText, hcons]
    exact ⟨_, htext, hslash⟩

/-- A text that leads down has no parts but a path, so the whole of it is read relative to a URL
that has segments. -/
theorem Descends.join_eq (h : Descends segments) (htext : text.toList = relativeText segments)
    (structured : u.isOpaque = false) :
    let p : Parts := ⟨relativeText segments, none, none⟩
    u.join text =
      if u.scheme = "file" then readFile (some u) p p.body else readRelative u p p.body := by
  rw [Url.join, htext, read, h.partsOfText]
  simp only [h.cutScheme?, structured, Bool.false_eq_true, if_false]

/-- Relative to a directory, segments that lead down from it are put in place of its empty one, and
query and fragment go. -/
theorem Descends.join (h : Descends segments) (hu : u.IsNormal)
    (hpath : u.path = .segments (list ++ [""])) (htext : text.toList = relativeText segments) :
    u.join text = .ok
      { u with path := .segments (list ++ segments), query := none, fragment := none } := by
  obtain ⟨c, cs, hcons, hslash⟩ := h.exists_cons
  have hstructured : u.isOpaque = false := by simp [isOpaque, hpath]
  have hread : readPath u.scheme (shorten false (list ++ [""])) (relativeText segments) =
      .segments (list ++ segments) := by
    rw [shorten_eq, List.dropLast_concat]
    exact readPath_segments hu.special hu.web h.ne_nil h.segment list
  rw [h.join_eq htext hstructured, if_neg hu.web]
  rw [hcons] at hread ⊢
  simp only [readRelative, hslash, Bool.false_eq_true, if_false, hpath, hread]
  rfl

theorem exists_readFile (base : Option Url) (p : Parts)
    (hslash : ∀ special, isSlash special c = false) (cs : List Char) :
    ∃ v, readFile base p (c :: cs) = .ok v := by
  cases cs with
  | nil => exact ⟨_, if_neg (Bool.eq_false_iff.mp (hslash true))⟩
  | cons d rest =>
    simp only [readFile, hslash, Bool.false_and, Bool.false_eq_true, if_false]
    exact ⟨_, rfl⟩

theorem exists_readRelative (p : Parts) (structured : u.isOpaque = false)
    (hslash : ∀ special, isSlash special c = false) (cs : List Char) :
    ∃ v, readRelative u p (c :: cs) = .ok v := by
  unfold isOpaque at structured
  split at structured
  · cases structured
  · rename_i list hpath
    simp only [readRelative, hslash, Bool.false_eq_true, if_false, hpath]
    exact ⟨_, rfl⟩

/-- Segments that lead down can be read relative to every URL that has segments itself. -/
theorem Descends.exists_join_iff (h : Descends segments) (u : Url)
    (htext : text.toList = relativeText segments) :
    (∃ v, u.join text = .ok v) ↔ u.isOpaque = false := by
  obtain ⟨c, cs, hcons, hslash⟩ := h.exists_cons
  constructor
  · rintro ⟨v, hv⟩
    rw [Url.join, htext, read, h.partsOfText] at hv
    simp only [h.cutScheme?] at hv
    by_contra hwhole
    rw [Bool.not_eq_false] at hwhole
    simp [hwhole, hcons] at hv
  · intro structured
    rw [h.join_eq htext structured, hcons]
    split
    · exact exists_readFile _ _ hslash cs
    · exact exists_readRelative _ structured hslash cs

theorem toText_descent (nonempty : segments ≠ []) (list : List String) :
    (Path.segments (list ++ segments)).toText =
      (Path.segments (list ++ [""])).toText ++ relativeText segments := by
  rw [toText_append, toText_segments nonempty, toText_concat_empty, List.append_assoc]
  rfl

end Descent
end TokenWatch.Url
