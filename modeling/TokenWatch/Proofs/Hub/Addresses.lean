import TokenWatch.Hub.Negotiation
import TokenWatch.Proofs.Url.Normal
import TokenWatch.Proofs.Url.Pairs
import TokenWatch.Proofs.Url.Slashes

/-!
Where a hub negotiates and where it is connected to. A connection is opened at any address of a hub
with the token behind its pairs; a negotiation is asked for below it only where the address ends
with its path.
-/
namespace TokenWatch

namespace Url

def knownPort? (u : Url) : Option Nat := u.port <|> defaultPort? u.scheme

structure SameServer (u v : Url) : Prop where
  username : u.username = v.username
  password : u.password = v.password
  host : u.host = v.host
  port : u.knownPort? = v.knownPort?

end Url

namespace Hub
open Url

variable {hub : Url} {text : String} {cs : List Char}

section Negotiation

/-- A text without the slashes at its end, and the segment of negotiations behind it. -/
def withSegment (cs : List Char) : List Char := withoutSlashes cs ++ "/negotiate".toList

/-- What is read where the segment stands behind the text of a hub: it belongs to the part that
stands last. -/
def Negotiation.target (hub : Url) : Url :=
  match hub.fragment, hub.query, hub.path with
  | some f, _, _ => { hub with fragment := some (String.ofList (withSegment f.toList)) }
  | none, some q, _ => { hub with query := some (String.ofList (withSegment q.toList)) }
  | none, none, .segments list =>
    { hub with path := .segments (list.rdropWhile (· = "") ++ ["negotiate"]) }
  | none, none, .opaqueText _ => hub

theorem plain_withSegment {inSet : Char → Bool} (h : ∀ c ∈ cs, inSet c = false)
    (spared : ∀ c ∈ "/negotiate".toList, inSet c = false) :
    ∀ c ∈ withSegment cs, inSet c = false :=
  List.forall_mem_append.mpr ⟨fun c hc => h c (mem_of_mem_withoutSlashes hc), spared⟩

theorem withSegment_append_cons {c : Char} (h : c ≠ '/') (front cs : List Char) :
    withSegment (front ++ c :: cs) = front ++ c :: withSegment cs := by
  rw [withSegment, withoutSlashes_append_cons h, List.append_assoc]
  rfl

theorem isNormal_target (h : hub.IsNormal) : (Negotiation.target hub).IsNormal := by
  rw [Negotiation.target]
  split
  · rename_i f hfragment
    refine ⟨h.special, h.web, h.authority, h.path, h.query, fun f' hf' => ?_⟩
    rw [← Option.some.inj hf', String.toList_ofList]
    exact plain_withSegment (h.fragment f hfragment) (List.all_iff_forall_prop.mp (by decide))
  · rename_i q hfragment hquery
    refine ⟨h.special, h.web, h.authority, h.path, fun q' hq' => ?_, h.fragment⟩
    rw [← Option.some.inj hq', String.toList_ofList]
    exact plain_withSegment (h.query q hquery) (List.all_iff_forall_prop.mp (by decide))
  · rename_i list hfragment hquery hpath
    refine ⟨h.special, h.web, h.authority, ⟨_, rfl, List.concat_ne_nil _ _, ?_⟩, h.query,
      h.fragment⟩
    obtain ⟨list', hpath', -, hlist⟩ := h.path
    obtain rfl := Path.segments.inj (hpath.symm.trans hpath')
    refine List.forall_mem_append.mpr ⟨fun s hs => hlist s ?_, ?_⟩
    · exact (List.rdropWhile_prefix _ list).subset hs
    · exact List.forall_mem_singleton.mpr (by decide)
  · exact h

/-- The slashes that do not count are those of the path. -/
theorem withoutSlashes_before_path {host : Host} (h : hub.IsNormal) (hhost : hub.host = some host) :
    withoutSlashes (hub.scheme.toList ++ ':' :: hub.authorityText) =
      hub.scheme.toList ++ ':' :: hub.authorityText := by
  have hauthority := h.authority_of_host hhost
  have hplain : ∀ c ∈ hub.authority host, c ≠ '/' := by
    rintro _ hc rfl
    exact Bool.false_ne_true (isSlash_of_mem_authority hauthority hc).symm
  obtain ⟨c, cs, hcons⟩ := List.exists_cons_of_ne_nil (authority_ne_nil hauthority)
  rw [hcons] at hplain
  obtain ⟨hc, hcs⟩ := List.forall_mem_cons.mp hplain
  have hfront : hub.scheme.toList ++ ':' :: hub.authorityText =
      (hub.scheme.toList ++ [':', '/', '/']) ++ c :: cs := by
    rw [authorityText_of_host hhost, hcons, List.append_assoc]
    rfl
  rw [hfront, withoutSlashes_append_cons hc, withoutSlashes_of_plain hcs]

theorem toChars_target (h : hub.IsNormal) :
    (Negotiation.target hub).toChars = withSegment hub.toChars := by
  rw [Negotiation.target]
  split
  · rename_i f hfragment
    rw [toChars_eq, toChars_eq hub, hfragment]
    simp only [markedText]
    rw [withSegment_append_cons (by decide), String.toList_ofList]
    rfl
  · rename_i q hfragment hquery
    rw [toChars_eq, toChars_eq hub, hfragment, hquery]
    simp only [markedText, List.append_nil]
    rw [withSegment_append_cons (by decide), String.toList_ofList]
    rfl
  · rename_i list hfragment hquery hpath
    obtain ⟨host, hhost, -⟩ := h.authority
    obtain ⟨list', hpath', -, hlist⟩ := h.path
    obtain rfl := Path.segments.inj (hpath.symm.trans hpath')
    have htext : hub.toChars = (hub.scheme.toList ++ ':' :: hub.authorityText) ++
        (Path.segments list).toText := by
      simp [toChars_eq, body, markedText, hfragment, hquery, hpath]
    rw [htext, withSegment, withoutSlashes_append_toText (withoutSlashes_before_path h hhost) hlist]
    simp [toChars_eq, body, markedText, hfragment, hquery, authorityText, hhost, Path.toText,
      credentialsText, portText]
  · rename_i hpath
    obtain ⟨list, hpath', -⟩ := h.path
    cases hpath.symm.trans hpath'

theorem address_eq (h : hub.IsNormal) :
    Negotiation.address hub =
      .ok ((Negotiation.target hub).appendPair "negotiateVersion" "1") := by
  have hread : Url.parse (String.ofList (withoutSlashes hub.toChars) ++ "/negotiate") =
      .ok (Negotiation.target hub) := by
    rw [parse, String.toList_append, String.toList_ofList]
    exact (congrArg (read none) (toChars_target h)).symm.trans (isNormal_target h).read_toChars
  exact congrArg (fun x => do let u ← x; return u.appendPair "negotiateVersion" "1") hread

/-- The segment is never there already. -/
theorem withSegment_ne (cs : List Char) : withSegment cs ≠ cs := fun h => by
  have hslashes : "/negotiate".toList = cs.rtakeWhile (· == '/') :=
    List.append_cancel_left (h.trans List.rdropWhile_append_rtakeWhile.symm)
  have hn : 'n' ∈ cs.rtakeWhile (· == '/') := hslashes ▸ by decide
  exact absurd (List.mem_rtakeWhile_imp hn) (by decide)

/-- Below a hub, with the hub's own pairs and the version. -/
structure NegotiatesBelow (hub url : Url) : Prop where
  path : url.path.toText = withSegment hub.path.toText
  pairs : url.pairs = hub.pairs ++ [("negotiateVersion", "1")]

/-- The segment becomes part of the path only where the path stands last. -/
theorem negotiatesBelow_target_iff (h : hub.IsNormal) :
    NegotiatesBelow hub ((Negotiation.target hub).appendPair "negotiateVersion" "1") ↔
      hub.query = none ∧ hub.fragment = none := by
  obtain ⟨list, hpath, -, hlist⟩ := h.path
  constructor
  · rintro ⟨htext, -⟩
    rw [appendPair, Negotiation.target] at htext
    split at htext
    · exact absurd htext.symm (withSegment_ne _)
    · exact absurd htext.symm (withSegment_ne _)
    · rename_i hfragment hquery _
      exact ⟨hquery, hfragment⟩
    · exact absurd htext.symm (withSegment_ne _)
  · rintro ⟨hquery, hfragment⟩
    have htarget : Negotiation.target hub =
        { hub with path := .segments (list.rdropWhile (· = "") ++ ["negotiate"]) } := by
      rw [Negotiation.target, hfragment, hquery, hpath]
    refine ⟨?_, ?_⟩
    · have htext := @withoutSlashes_append_toText [] list rfl hlist
      rw [List.nil_append, List.nil_append] at htext
      rw [htarget, withSegment, hpath, htext]
      exact toText_append _ _
    · rw [pairs_appendPair, htarget]
      rfl

end Negotiation

section Connection

structure ConnectsTo (hub : Url) (token : String) (url : Url) : Prop where
  scheme : url.scheme = "ws" ∨ url.scheme = "wss"
  encrypted : url.scheme = "wss" ↔ hub.scheme = "https" ∨ hub.scheme = "wss"
  server : url.SameServer hub
  path : url.path = hub.path
  pairs : url.pairs = hub.pairs ++ [("id", token)]
  fragment : url.fragment = hub.fragment

theorem hasHost_of_isNormal (h : hub.IsNormal) : hub.hasHost = true := by
  obtain ⟨host, hhost, hauthority⟩ := h.authority
  rw [hasHost, hhost]
  refine decide_eq_true ?_
  rintro rfl
  exact Host.toText_ne_nil hauthority.host rfl

theorem webSocketAddress_spec (h : hub.IsNormal)
    (web : hub.scheme ∈ ["http", "https", "ws", "wss"]) (token : String) :
    ∃ url, webSocketAddress hub token = .ok url ∧ ConnectsTo hub token url := by
  have hschemes : ∀ s ∈ ["http", "https", "ws", "wss"],
      defaultPort? (webSocketScheme s) = defaultPort? s ∧
      (webSocketScheme s = "ws" ∨ webSocketScheme s = "wss") ∧
      (webSocketScheme s = "wss" ↔ s = "https" ∨ s = "wss") := by decide
  obtain ⟨hdefault, hscheme, hencrypted⟩ := hschemes _ web
  have hexchange : (hub.isSpecial && hub.hasHost) = true := by
    rw [isSpecial, h.special, hasHost_of_isNormal h]
    rfl
  have hexchanged : hub.withSpecialScheme? (webSocketScheme hub.scheme) =
      some { hub with
        scheme := webSocketScheme hub.scheme
        port := if hub.port = defaultPort? hub.scheme then none else hub.port } := by
    rw [withSpecialScheme?, if_pos hexchange, hdefault]
  -- a port that is left out is the one that both schemes have
  have hport : ((if hub.port = defaultPort? hub.scheme then none else hub.port) <|>
      defaultPort? (webSocketScheme hub.scheme)) = hub.knownPort? := by
    rw [hdefault, knownPort?]
    split
    · rename_i hport
      rw [hport]
      cases defaultPort? hub.scheme <;> rfl
    · rfl
  rw [webSocketAddress, hexchanged]
  exact ⟨_, rfl, hscheme, hencrypted, ⟨rfl, rfl, rfl, hport⟩, rfl, pairs_appendPair _ "id" token,
    rfl⟩

end Connection

section Addresses

theorem isNormal_hub (h : Url.parse text = .ok hub)
    (web : hub.scheme ∈ ["http", "https", "ws", "wss"]) : hub.IsNormal := by
  have hschemes : ∀ s ∈ ["http", "https", "ws", "wss"], isSpecialScheme s = true ∧ s ≠ "file" := by
    decide
  obtain ⟨special, hfile⟩ := hschemes _ web
  exact isNormal_of_parse h special hfile

/-- A connection is opened at the hub's own address, whatever parts that has. The token is asked for
at the same server, but below the hub's path only where the path stands last: a segment behind a
query becomes part of the query, and one behind a fragment is not sent at all. -/
theorem addressed_alike_iff (h : Url.parse text = .ok hub)
    (web : hub.scheme ∈ ["http", "https", "ws", "wss"]) :
    (∀ token, ∃ url, webSocketAddress hub token = .ok url ∧ ConnectsTo hub token url) ∧
    ∃ asked, Negotiation.request hub = .ok ⟨.post, asked, none⟩ ∧
      asked.scheme = hub.scheme ∧ asked.SameServer hub ∧
      (∀ f, hub.fragment = some f →
        asked.path = hub.path ∧ asked.pairs = hub.pairs ++ [("negotiateVersion", "1")] ∧
        asked.fragment = some (String.ofList (withSegment f.toList))) ∧
      (∀ q, hub.fragment = none → hub.query = some q →
        asked.path = hub.path ∧
        asked.pairs = readPairs (withSegment q.toList) ++ [("negotiateVersion", "1")] ∧
        asked.fragment = none) ∧
      (NegotiatesBelow hub asked ↔ hub.query = none ∧ hub.fragment = none) := by
  have normal := isNormal_hub h web
  refine ⟨webSocketAddress_spec normal web,
    (Negotiation.target hub).appendPair "negotiateVersion" "1", ?_, ?_, ?_, fun f hf => ?_,
    fun q hf hq => ?_, negotiatesBelow_target_iff normal⟩
  · rw [Negotiation.request, address_eq normal]
    rfl
  · rw [appendPair, Negotiation.target]
    split <;> rfl
  · rw [appendPair, Negotiation.target]
    split <;> exact ⟨rfl, rfl, rfl, rfl⟩
  · rw [pairs_appendPair, Negotiation.target, hf]
    exact ⟨rfl, rfl, rfl⟩
  · rw [pairs_appendPair, Negotiation.target, hf, hq]
    refine ⟨rfl, ?_, rfl⟩
    rw [pairs, Option.getD_some, String.toList_ofList]

/-- With a query the hub itself is asked, and its pair is another one; slashes are no hindrance. -/
theorem addressed_alike_iff_query :
    (∃ hub asked, Url.parse "https://h/hub?x=1" = .ok hub ∧
      Negotiation.request hub = .ok ⟨.post, asked, none⟩ ∧ asked.path = .segments ["hub"] ∧
      asked.pairs = [("x", "1/negotiate"), ("negotiateVersion", "1")] ∧
      ¬NegotiatesBelow hub asked) ∧
    ∃ hub asked url, Url.parse "http://h:8080//hub//" = .ok hub ∧
      Negotiation.request hub = .ok ⟨.post, asked, none⟩ ∧ NegotiatesBelow hub asked ∧
      webSocketAddress hub "a+b/c=" = .ok url ∧ url.pairs = [("id", "a+b/c=")] := by
  constructor
  · let hub : Url :=
      ⟨"https", "", "", some (.name "h"), none, .segments ["hub"], some "x=1", none⟩
    have hparse : Url.parse "https://h/hub?x=1" = .ok hub := by decide +kernel
    obtain ⟨-, asked, hrequest, -, -, -, hquery, hbelow⟩ :=
      addressed_alike_iff hparse (by decide)
    obtain ⟨hpath, hpairs, -⟩ := hquery "x=1" rfl rfl
    have hpair : readPairs (withSegment "x=1".toList) = [("x", "1/negotiate")] := by
      decide +kernel
    rw [hpair] at hpairs
    exact ⟨hub, asked, hparse, hrequest, hpath, hpairs, fun h => nomatch (hbelow.mp h).1⟩
  · let hub : Url :=
      ⟨"http", "", "", some (.name "h"), some 8080, .segments ["", "hub", "", ""], none, none⟩
    have hparse : Url.parse "http://h:8080//hub//" = .ok hub := by decide +kernel
    obtain ⟨hconnect, asked, hrequest, -, -, -, -, hbelow⟩ :=
      addressed_alike_iff hparse (by decide)
    obtain ⟨url, haddress, hconnected⟩ := hconnect "a+b/c="
    exact ⟨hub, asked, url, hparse, hrequest, hbelow.mpr ⟨rfl, rfl⟩, haddress, hconnected.pairs⟩

end Addresses

end Hub
end TokenWatch
