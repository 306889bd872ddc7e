import Hypermedia.Proofs.Session.Trail

/-! Origins: the scheme, the host and the port of a URL, and which endpoints that begin with a slash keep
those of the page. -/
namespace Hypermedia

namespace Url

structure SameOrigin (u v : Url) : Prop where
  scheme : u.scheme = v.scheme
  host : u.host = v.host
  port : u.port = v.port

/-- Whether a URL is one of the web. -/
def IsWeb (u : Url) : Prop :=
  u.scheme = "http".toList ∨ u.scheme = "https".toList

/-- The host and the port of a URL. -/
def place? (u : Url) : Option (Host × Option Nat) :=
  u.host.map fun host => (host, u.port)

/-- The host and the port that an authority names. -/
def placeNamed? (scheme authority : List Char) : Option (Host × Option Nat) := do
  let (hostText, portText) := splitPort false (splitUserinfo authority).2
  return (← Host.parse? hostText, ← port? scheme (portText.getD []))

/-- What follows the two slashes that a reference begins with; after a turned one, all slashes. -/
def afterTwoSlashes? : List Char → Option (List Char)
  | '/' :: '/' :: rest => some rest
  | '/' :: '\\' :: rest => some (rest.dropWhile (isSlash true))
  | _ => none

/-- The authority that a text names if it is read relative to a page of the web. -/
def authority? (text : String) : Option (List Char) :=
  (afterTwoSlashes? (clean text.toList)).map (authorityPart true)

variable {u v base : Url} {text : String} {scheme s rest : List Char} {segments : List (List Char)}

theorem IsWeb.special (h : base.IsWeb) : isSpecialScheme base.scheme = true := by
  rcases h with h | h <;> rw [h] <;> decide

theorem IsWeb.not_file (h : base.IsWeb) : isFileScheme base.scheme = false := by
  rcases h with h | h <;> rw [h] <;> decide

theorem OnSite.sameOrigin (h : u.OnSite v) : v.SameOrigin u :=
  ⟨h.scheme, h.host, h.port⟩

theorem place?_eq_iff_of_isSome (hhost : u.host.isSome) :
    u.place? = v.place? ↔ u.host = v.host ∧ u.port = v.port := by
  obtain ⟨host, hu⟩ := Option.isSome_iff_exists.mp hhost
  cases hv : v.host <;> simp [place?, hu, hv]

/-- The first slash of a text is not cleaned away. -/
theorem exists_clean_of_slash (h : ['/'].isPrefixOf text.toList = true) :
    ∃ rest, clean text.toList = '/' :: rest := by
  cases htext : text.toList with
  | nil =>
    rw [htext] at h
    cases h
  | cons c rest =>
    rw [htext, List.isPrefixOf_cons_cons, Bool.and_eq_true, beq_iff_eq] at h
    obtain ⟨rfl, -⟩ := h
    have hstart : ('/'.toNat ≤ 0x20) = False := by decide
    simp only [clean, List.dropWhile_cons, hstart, decide_false, Bool.false_eq_true, if_false,
      List.reverse_cons, List.dropWhile_append]
    split
    · exact ⟨[], by decide⟩
    · simp

theorem sameOrigin_setUserinfo (u : Url) (info : List Char) : (u.setUserinfo info).SameOrigin u := by
  unfold setUserinfo
  split <;> exact ⟨rfl, rfl, rfl⟩

/-- What is read after two slashes is at the place that the authority names. -/
theorem placeNamed?_of_afterSlashes (hspecial : isSpecialScheme scheme = true)
    (h : afterSlashes scheme s = some u) :
    u.scheme = scheme ∧ u.host.isSome ∧ placeNamed? scheme (authorityPart true s) = u.place? := by
  unfold afterSlashes at h
  simp only [hspecial, Option.bind_eq_bind, if_true] at h
  split at h
  · cases h
  · obtain ⟨host, hhost, h⟩ := Option.bind_eq_some_iff.mp h
    obtain ⟨port, hport, h⟩ := Option.bind_eq_some_iff.mp h
    obtain ⟨info, tail, start, rfl, hstart⟩ : ∃ info tail, ∃ start : Url,
        (start.setUserinfo info).withTail tail = u ∧
          start.scheme = scheme ∧ start.host = some host ∧ start.port = port :=
      ⟨_, _, _, Option.some.inj h, rfl, rfl, rfl⟩
    have hsame := sameOrigin_setUserinfo start info
    have hread : placeNamed? scheme (authorityPart true s) = some (host, port) := by
      simp only [placeNamed?, hhost, hport]
      rfl
    refine ⟨hsame.scheme.trans hstart.1, ?_, ?_⟩
    · change (start.setUserinfo info).host.isSome
      rw [hsame.host, hstart.2.1]
      rfl
    · change _ = (start.setUserinfo info).host.map fun host => (host, (start.setUserinfo info).port)
      rw [hread, hsame.host, hsame.port, hstart.2.1, hstart.2.2]
      rfl

/-- A reference that begins with a slash names a place for itself or a path on the site of the base. -/
theorem relative_of_web (hweb : base.IsWeb) (hpath : base.path = .segments segments) :
    base.relative ('/' :: rest) = match afterTwoSlashes? ('/' :: rest) with
      | some place => afterSlashes base.scheme place
      | none => some (base.rooted ('/' :: rest)) := by
  split
  · next place hplace =>
    unfold relative
    rw [hpath]
    simp only [hweb.not_file, hweb.special, Bool.false_eq_true, if_false]
    unfold afterTwoSlashes? at hplace
    split at hplace
    · next heq =>
      cases hplace
      cases heq
      rfl
    · next heq =>
      cases hplace
      cases heq
      rfl
    · cases hplace
  · next hplace =>
    refine relative_of_slash hpath hweb.not_file ?_
    cases rest with
    | nil => rfl
    | cons c rest =>
      simp only [List.head?_cons, Option.all_some, Bool.and_eq_true, bne_iff_ne]
      constructor
      · rintro rfl
        cases hplace
      · rintro rfl
        cases hplace

end Url

namespace Session

open Url (SameOrigin authority? placeNamed?)

variable {base url : Url} {endpoint : String}

/-- From a page of the web an endpoint that begins with a slash leads to the origin of the page if and only
if it names no place for itself, by two slashes at its beginning once it is cleaned, or names that of the
page. -/
theorem rooted_keeps_origin_iff (hweb : base.IsWeb) (hslash : ['/'].isPrefixOf endpoint.toList = true)
    (h : resolveEndpoint base endpoint = .ok url) :
    url.SameOrigin base ↔
      ∀ authority, authority? endpoint = some authority → placeNamed? base.scheme authority = base.place? := by
  obtain ⟨rest, hclean⟩ := Url.exists_clean_of_slash hslash
  have hjoin : base.relative ('/' :: rest) = some url := by
    unfold resolveEndpoint at h
    dsimp only at h
    rw [if_pos hslash, Url.join, hclean] at h
    split at h
    · cases h
      assumption
    · cases h
  cases hpath : base.path with
  | opaqueText text =>
    simp [Url.relative, hpath] at hjoin
  | segments segments =>
    rw [Url.relative_of_web hweb hpath] at hjoin
    have hauthority : authority? endpoint = (Url.afterTwoSlashes? ('/' :: rest)).map (Url.authorityPart true) := by
      rw [authority?, hclean]
    cases hplace : Url.afterTwoSlashes? ('/' :: rest) with
    | none =>
      rw [hplace] at hjoin hauthority
      cases hjoin
      refine iff_of_true (Url.OnSite.rooted _).sameOrigin fun authority hsome => ?_
      rw [hauthority] at hsome
      cases hsome
    | some place =>
      rw [hplace] at hjoin hauthority
      obtain ⟨hscheme, hhost, hread⟩ := Url.placeNamed?_of_afterSlashes hweb.special hjoin
      have hforall : (∀ authority, authority? endpoint = some authority →
          placeNamed? base.scheme authority = base.place?) ↔ url.place? = base.place? := by
        rw [hauthority, ← hread]
        simp
      rw [hforall, Url.place?_eq_iff_of_isSome hhost]
      exact ⟨fun hsame => ⟨hsame.host, hsame.port⟩, fun hsame => ⟨hscheme, hsame.1, hsame.2⟩⟩

/-- A page of the web. -/
def article : Url where
  scheme := "https".toList
  host := some (.name "example.com".toList)
  path := .segments ["app".toList, "page".toList]

theorem parse_article : (Url.parse "https://example.com/app/page").toOption = some article := by
  decide +kernel

theorem exists_resolved {p : Url → Prop} (endpoint : String)
    (h : ∃ url ∈ (resolveEndpoint article endpoint).toOption, p url) :
    ∃ url, resolveEndpoint article endpoint = .ok url ∧ p url := by
  obtain ⟨url, hurl, hp⟩ := h
  cases hr : resolveEndpoint article endpoint with
  | error e =>
    rw [hr] at hurl
    cases hurl
  | ok other =>
    rw [hr] at hurl
    cases hurl
    exact ⟨url, rfl, hp⟩

/-- Two slashes lead away from the page, to the host that they name. -/
theorem rooted_leaves_origin :
    (Url.parse "https://example.com/app/page").toOption = some article ∧ article.IsWeb ∧
      ['/'].isPrefixOf "//other.org/a".toList = true ∧
      ∃ url, resolveEndpoint article "//other.org/a" = .ok url ∧ ¬ url.SameOrigin article := by
  obtain ⟨url, hurl, hhost⟩ := exists_resolved (p := fun url => url.host ≠ article.host)
    "//other.org/a" (by decide +kernel)
  exact ⟨parse_article, .inr rfl, by decide, url, hurl, fun hsame => hhost hsame.host⟩

/-- A turned slash, a tab, a capital letter and the port of the scheme name the host of the page. -/
theorem rooted_keeps_origin_renamed :
    article.IsWeb ∧ ['/'].isPrefixOf "/\\\t/Example.com:443/b".toList = true ∧
      authority? "/\\\t/Example.com:443/b" = some "Example.com:443".toList ∧
      ∃ url, resolveEndpoint article "/\\\t/Example.com:443/b" = .ok url ∧ url.SameOrigin article := by
  have hauthority : authority? "/\\\t/Example.com:443/b" = some "Example.com:443".toList := by
    decide +kernel
  obtain ⟨url, hurl, -⟩ := exists_resolved (p := fun _ => True)
    "/\\\t/Example.com:443/b" (by decide +kernel)
  have hplace : placeNamed? article.scheme "Example.com:443".toList = article.place? := by
    decide +kernel
  have hkeeps := (rooted_keeps_origin_iff (.inr rfl) (by decide) hurl).mpr fun authority hnamed => by
    cases hauthority.symm.trans hnamed
    exact hplace
  exact ⟨.inr rfl, by decide, hauthority, url, hurl, hkeeps⟩

end Session

end Hypermedia
