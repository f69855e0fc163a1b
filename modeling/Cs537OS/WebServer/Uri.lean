import Cs537OS.Foundation.Paths
import Cs537OS.WebServer.Rio

/-!
# From the URI to the file name

`requestParseURI` puts `./public` before the URI. A URI with `..` is replaced by the home page, but
nothing asks whether the URI begins with a slash, which is what separates it from `public`.

* `head?_target` — in every branch the URI is cut or made longer at its end only;
* `requestParseURI_contained_iff` — the file lies under `./public` when the URI begins with a slash
  or has `..` in it.
-/

namespace WebServer

/-- The bytes of a string literal. -/
def str (s : String) : List UInt8 := s.toList.map fun c ↦ UInt8.ofNat c.toNat

def slash : UInt8 := 47

def dot : UInt8 := 46

def questionMark : UInt8 := 63

/-- What `requestParseURI` calculates. -/
structure ParsedURI where
  isStatic : Bool
  filename : List UInt8
  /-- `none` where the array stays as it is. -/
  cgiargs : Option (List UInt8)
  /-- The strings that are built in the two arrays, one after the other. -/
  stored : List (List UInt8)

/-- `requestParseURI`; `before` is the byte in front of the array, which is read if the URI is
empty. -/
def requestParseURI (before : UInt8) (uri : List UInt8) : ParsedURI :=
  if str ".." <:+: uri then
    ⟨true, str "./public/home.html", none, [str "./public/home.html"]⟩
  else if ¬ str "cgi" <:+: uri then
    let filename := str "./public" ++ uri
    if (before :: uri).getLast (List.cons_ne_nil _ _) = slash then
      ⟨true, filename ++ str "home.html", some [],
        [[], filename, filename ++ str "home.html"]⟩
    else ⟨true, filename, some [], [[], filename]⟩
  else
    match uri.span (· ≠ questionMark) with
    | (uri, _ :: args) =>
      ⟨false, str "./public" ++ uri, some args, [args, str "./public" ++ uri]⟩
    | (uri, []) =>
      ⟨false, str "./public" ++ uri, some [], [[], str "./public" ++ uri]⟩

/-- A file name that stays in `./public`. -/
structure Contained (filename : List UInt8) : Prop where
  starts : str "./public/" <+: filename
  noDots : [dot, dot] ∉ filename.splitOn slash

variable {before : UInt8} {uri filename w : List UInt8}

theorem components_public : (str "./public").splitOn slash = [[dot], str "public"] := by decide

/-- The file lies in the directory `public` of the directory in which the server runs. -/
theorem Contained.under (h : Contained filename) (cwd : List (List UInt8)) :
    cwd ++ [str "public"] <+: Paths.walk slash dot cwd filename := by
  obtain ⟨t, rfl⟩ := h.starts
  have hpublic : Paths.walk slash dot cwd (str "./public") = cwd ++ [str "public"] := by
    rw [Paths.walk, components_public]
    rfl
  have hdots := h.noDots
  rw [show str "./public/" ++ t = str "./public" ++ slash :: t from rfl] at hdots ⊢
  rw [List.splitOn_append_cons_self] at hdots
  rw [Paths.walk_append_cons, hpublic]
  exact Paths.prefix_walk fun hmem ↦ hdots (List.mem_append_right _ hmem)

theorem public_prefix_iff : str "./public/" <+: str "./public" ++ w ↔ w.head? = some slash := by
  rw [show str "./public/" = str "./public" ++ [slash] from rfl, List.prefix_append_right_inj]
  cases w with
  | nil => exact iff_of_false (fun h ↦ by cases List.prefix_nil.1 h) nofun
  | cons a w =>
    rw [List.cons_prefix_cons, List.head?_cons, Option.some_inj, eq_comm]
    exact and_iff_left List.nil_prefix

/-- A part of the URI behind `./public` has no `..`. -/
theorem noDots_append (hdots : ¬ str ".." <:+: uri) (hslash : uri.head? = some slash)
    (hw : w <+: uri) : [dot, dot] ∉ (str "./public" ++ w).splitOn slash := by
  cases w with
  | nil => decide
  | cons a w =>
    have ha : a = slash := by
      obtain ⟨r, rfl⟩ := hw
      exact Option.some.inj hslash
    rw [ha, List.splitOn_append_cons_self, components_public]
    intro hmem
    rcases List.mem_append.1 hmem with hmem | hmem
    · exact absurd hmem (by decide)
    · have hpart := Paths.infix_of_mem_splitOnP hmem
      exact hdots (hpart.trans ((List.suffix_cons a w).isInfix.trans hw.isInfix))

/-- Where a URI leads from `./public`. -/
def target (before : UInt8) (uri : List UInt8) : List UInt8 :=
  if str ".." <:+: uri then str "/home.html"
  else if str "cgi" <:+: uri then uri.takeWhile (· ≠ questionMark)
  else if (before :: uri).getLast (List.cons_ne_nil _ _) = slash then uri ++ str "home.html"
  else uri

theorem requestParseURI_filename (before : UInt8) (uri : List UInt8) :
    (requestParseURI before uri).filename = str "./public" ++ target before uri := by
  rw [requestParseURI, target]
  split_ifs with hdots hcgi hlast
  · rfl
  · rw [List.span_eq_takeWhile_dropWhile]
    cases uri.dropWhile (· ≠ questionMark) <;> rfl
  · exact List.append_assoc _ _ _
  · rfl

example : (requestParseURI 0 (str "/run.cgi?a=1")).filename = str "./public/run.cgi" := by decide

/-- In every branch the URI is cut or made longer at its end only. -/
theorem head?_target (hdots : ¬ str ".." <:+: uri) :
    (target before uri).head? = some slash ↔ uri.head? = some slash := by
  rw [target, if_neg hdots]
  cases uri with
  | nil =>
    split_ifs
    · rfl
    · exact iff_of_false (by decide) nofun
    · rfl
  | cons a uri =>
    split_ifs
    · rw [List.takeWhile_cons]
      by_cases ha : a = questionMark
      · rw [ha]
        exact iff_of_false nofun fun h ↦ absurd (Option.some.inj h) (by decide)
      · rw [if_pos (decide_eq_true ha)]
        rfl
    · rfl
    · rfl

theorem noDots_target (hdots : ¬ str ".." <:+: uri) (hslash : uri.head? = some slash) :
    [dot, dot] ∉ (str "./public" ++ target before uri).splitOn slash := by
  rw [target, if_neg hdots]
  split_ifs with hcgi hlast
  · exact noDots_append hdots hslash (List.takeWhile_prefix _)
  · have hne : uri ≠ [] := fun h ↦ by
      rw [h] at hslash
      cases hslash
    rw [List.getLast_cons hne] at hlast
    obtain ⟨v, rfl⟩ : ∃ v, uri = v ++ [slash] :=
      ⟨uri.dropLast, hlast ▸ (List.dropLast_append_getLast hne).symm⟩
    -- the name of the home page is a component of its own
    have hcut : str "./public" ++ (v ++ [slash] ++ str "home.html") =
        str "./public" ++ v ++ slash :: str "home.html" := by
      rw [List.append_assoc, List.append_assoc]
      rfl
    rw [hcut, List.splitOn_append_cons_self]
    intro hmem
    rcases List.mem_append.1 hmem with hmem | hmem
    · exact noDots_append hdots hslash (List.prefix_append v [slash]) hmem
    · exact absurd hmem (by decide)
  · exact noDots_append hdots hslash List.prefix_rfl

/-- The file of a URI with `..` is the home page. -/
theorem contained_iff (before : UInt8) (uri : List UInt8) :
    Contained (str "./public" ++ target before uri) ↔
      str ".." <:+: uri ∨ uri.head? = some slash := by
  by_cases hdots : str ".." <:+: uri
  · have hhome : Contained (str "./public" ++ str "/home.html") := ⟨by decide, by decide⟩
    rw [target, if_pos hdots]
    exact iff_of_true hhome (.inl hdots)
  · rw [or_iff_right hdots, ← head?_target hdots]
    refine ⟨fun h ↦ public_prefix_iff.1 h.starts, fun hslash ↦ ⟨public_prefix_iff.2 hslash, ?_⟩⟩
    exact noDots_target hdots ((head?_target hdots).1 hslash)

/-- **Where the files lie**: a file is under `./public` exactly when the URI begins with a slash,
or when it has `..` in it. -/
theorem requestParseURI_contained_iff (before : UInt8) (uri : List UInt8) :
    (Contained (requestParseURI before uri).filename ∧ ∀ cwd, cwd ++ [str "public"] <+:
        Paths.walk slash dot cwd (requestParseURI before uri).filename) ↔
      str ".." <:+: uri ∨ uri.head? = some slash := by
  rw [and_iff_left_of_imp Contained.under, requestParseURI_filename, contained_iff]

/-- `GET x` asks for a file beside `public`. -/
theorem requestParseURI_sibling :
    ¬ Contained (requestParseURI 32 (str "x")).filename ∧
      Paths.walk slash dot [] (requestParseURI 32 (str "x")).filename = [str "publicx"] :=
  ⟨fun h ↦ absurd h.starts (by decide), by decide⟩

end WebServer
