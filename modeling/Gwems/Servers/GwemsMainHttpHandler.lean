import Gwems.Library.Percent
import Gwems.Library.Text

/-!
# `GwemsMainHttpHandler.java`: which files a request can name

`sanitizeUri` turns the URI of a request into the path of a file. It decodes the URI, wants a slash
at the front, refuses every dot beside a slash or at an end, and matches the text against
`.*[<>&"].*`, so that the path can be written into a directory listing as it is.

The dots are all found (`forall_splitOn_indexed`). The pattern is matched against the whole text,
but `.` stands for no line terminator: a text with one of them never matches
(`insecureUri_iff`), and its other characters go through. `harmless_iff` says that these are the
only requests for which the path is not what it should be, and `slips_encode` that every such path
can be requested.
-/

namespace Gwems

namespace HttpHandler

/-- `File.separatorChar`. -/
def separator : Char := '/'

/-! ### The pattern -/

/-- The characters that `.` does not stand for. -/
def IsLineTerminator (c : Char) : Prop := c ∈ ['\n', '\r', '\u0085', '\u2028', '\u2029']

/-- The characters of the class `[<>&"]`. -/
def IsInsecure (c : Char) : Prop := c ∈ ['<', '>', '&', '"']

instance (c : Char) : Decidable (IsLineTerminator c) :=
  inferInstanceAs (Decidable (c ∈ [_, _, _, _, _]))

instance (c : Char) : Decidable (IsInsecure c) := inferInstanceAs (Decidable (c ∈ [_, _, _, _]))

/-- The whole text matches `INSECURE_URI`: `.*`, an insecure character, and `.*`. -/
def InsecureUri (l : List Char) : Prop :=
  ∃ l₁ c l₂, l = l₁ ++ c :: l₂ ∧ (∀ a ∈ l₁, ¬ IsLineTerminator a) ∧ IsInsecure c ∧
    ∀ a ∈ l₂, ¬ IsLineTerminator a

/-- **A line terminator hides the others.** -/
theorem insecureUri_iff {l : List Char} :
    InsecureUri l ↔ (∃ c ∈ l, IsInsecure c) ∧ ∀ c ∈ l, ¬ IsLineTerminator c := by
  constructor
  · rintro ⟨l₁, c, l₂, rfl, h₁, hc, h₂⟩
    refine ⟨⟨c, by simp, hc⟩, ?_⟩
    have hnot : ∀ a, IsInsecure a → ¬ IsLineTerminator a := by
      simp [IsInsecure, IsLineTerminator]
    intro a ha
    rcases List.mem_append.mp ha with ha | ha
    · exact h₁ a ha
    · rcases List.mem_cons.mp ha with rfl | ha
      · exact hnot _ hc
      · exact h₂ a ha
  · rintro ⟨⟨c, hmem, hc⟩, h⟩
    obtain ⟨l₁, l₂, rfl⟩ := List.append_of_mem hmem
    exact ⟨l₁, c, l₂, rfl, fun a ha => h a (List.mem_append_left _ ha), hc,
      fun a ha => h a (List.mem_append_right _ (List.mem_cons_of_mem _ ha))⟩

instance (l : List Char) : Decidable (InsecureUri l) :=
  -- not over all characters there are
  have : Decidable (∃ c ∈ l, IsInsecure c) := List.decidableBEx _ _
  have : Decidable (∀ c ∈ l, ¬ IsLineTerminator c) := List.decidableBAll _ _
  decidable_of_iff _ insecureUri_iff.symm

/-! ### The path -/

/-- The path of the file that a URI names; none if it is refused, and an exception if the URI
cannot be decoded. -/
def sanitizeUri (baseDirectory uri : String) : Except Percent.Error (Option String) := do
  let uri ← Percent.decode uri
  if uri.toList.head? ≠ some '/' then
    return none
  let uri := uri.toList.map fun c => if c = '/' then separator else c
  if [separator, '.'] <:+: uri ∨ ['.', separator] <:+: uri ∨ uri.head? = some '.' ∨
      uri.getLast? = some '.' ∨ InsecureUri uri then
    return none
  let uri := if uri = [] ∨ uri = ['/'] then "index.html".toList else uri
  return some (baseDirectory ++ toString separator ++ String.ofList uri)

/-- A path that stays below its directory and can be written into a page. -/
structure HarmlessPath (path : String) : Prop where
  components : ∀ c ∈ path.toList.splitOn '/', c.head? ≠ some '.' ∧ c.getLast? ≠ some '.'
  characters : ∀ c ∈ path.toList, ¬ IsInsecure c

/-- A URI is refused, or names a harmless path. -/
def Harmless (baseDirectory uri : String) : Prop :=
  ∀ result, sanitizeUri baseDirectory uri = .ok (some result) →
    ∃ path, result = baseDirectory ++ "/" ++ path ∧ HarmlessPath path

/-- A URI of a path with an insecure character and a line terminator, in which nothing else is
wrong. -/
def Slips (uri : String) : Prop :=
  ∃ path, Percent.decode uri = .ok path ∧ path.toList.head? = some '/' ∧
    Text.Unmarked '/' '.' path.toList ∧ (∃ c ∈ path.toList, IsInsecure c) ∧
    ∃ c ∈ path.toList, IsLineTerminator c

/-- The path behind the directory. -/
def indexed (path : String) : String := if path = "/" then "index.html" else path

/-- The separator is a slash already. -/
theorem map_separator (l : List Char) :
    (l.map fun c => if c = '/' then separator else c) = l := by
  refine List.map_id'' (fun c => ?_) _
  split
  next h => exact h.symm
  next => rfl

/-- A text that begins with a slash is not empty. -/
theorem ofList_indexed {path : String} (hslash : path.toList.head? = some '/') :
    String.ofList (if path.toList = [] ∨ path.toList = ['/'] then "index.html".toList
      else path.toList) = indexed path := by
  have hempty : path.toList ≠ [] := by
    intro h
    rw [h] at hslash
    cases hslash
  have hroot : path.toList = ['/'] ↔ path = "/" := by
    rw [← String.toList_inj]
    rfl
  simp only [hempty, false_or, hroot, indexed]
  split
  next => rfl
  next => exact String.ofList_toList

/-- What is returned. -/
theorem sanitizeUri_eq_ok_some_iff {baseDirectory uri result : String} :
    sanitizeUri baseDirectory uri = .ok (some result) ↔
      ∃ path, Percent.decode uri = .ok path ∧ path.toList.head? = some '/' ∧
        Text.Unmarked '/' '.' path.toList ∧ ¬ InsecureUri path.toList ∧
        result = baseDirectory ++ "/" ++ indexed path := by
  rw [sanitizeUri]
  rw [Text.bind_eq_ok_iff]
  refine exists_congr fun path => and_congr_right fun _ => ?_
  simp only [map_separator]
  split
  next hslash => exact iff_of_false (fun h => by cases h) (fun h => hslash h.1)
  next hslash =>
    rw [not_not] at hslash
    have hdots : Text.Unmarked separator '.' path.toList ↔
        ¬ [separator, '.'] <:+: path.toList ∧ ¬ ['.', separator] <:+: path.toList ∧
          path.toList.head? ≠ some '.' ∧ path.toList.getLast? ≠ some '.' :=
      ⟨fun h => ⟨h.behind, h.before, h.first, h.last⟩, fun h => ⟨h.1, h.2.1, h.2.2.1, h.2.2.2⟩⟩
    split
    next h =>
      refine iff_of_false (fun h => by cases h) ?_
      rintro ⟨-, hunmarked, hsecure, -⟩
      rcases h with h | h | h | h | h
      · exact hunmarked.behind h
      · exact hunmarked.before h
      · exact hunmarked.first h
      · exact hunmarked.last h
      · exact hsecure h
    next h =>
      simp only [not_or] at h
      obtain ⟨hbehind, hbefore, hfirst, hlast, hsecure⟩ := h
      rw [ofList_indexed hslash]
      constructor
      · intro h
        obtain rfl := Option.some.inj (Except.ok.inj h)
        exact ⟨hslash, ⟨hbehind, hbefore, hfirst, hlast⟩, hsecure, rfl⟩
      · rintro ⟨-, -, -, rfl⟩
        rfl

/-- **Every dot is found.** -/
theorem forall_splitOn_indexed {path : String} (h : Text.Unmarked '/' '.' path.toList) :
    ∀ c ∈ (indexed path).toList.splitOn '/', c.head? ≠ some '.' ∧ c.getLast? ≠ some '.' := by
  rw [indexed]
  split
  next => decide +kernel
  next => exact (Text.forall_splitOn_iff (by decide) _).mpr h

theorem isInsecure_indexed_iff {path : String} :
    (∃ c ∈ (indexed path).toList, IsInsecure c) ↔ ∃ c ∈ path.toList, IsInsecure c := by
  rw [indexed]
  split
  next h =>
    subst h
    simp [IsInsecure]
  next => rfl

/-- A line terminator lets the insecure characters through. -/
theorem Slips.not_harmless {uri : String} (h : Slips uri) (baseDirectory : String) :
    ¬ Harmless baseDirectory uri := by
  obtain ⟨path, hdecode, hslash, hunmarked, hinsecure, hline⟩ := h
  intro h
  have hsecure : ¬ InsecureUri path.toList := by
    rw [insecureUri_iff]
    rintro ⟨-, hnone⟩
    obtain ⟨c, hc, hterminator⟩ := hline
    exact hnone c hc hterminator
  obtain ⟨path', hpath, hharmless⟩ := h _
    (sanitizeUri_eq_ok_some_iff.mpr ⟨path, hdecode, hslash, hunmarked, hsecure, rfl⟩)
  obtain rfl := (String.append_right_inj _).mp hpath
  obtain ⟨c, hc, hbad⟩ := isInsecure_indexed_iff.mpr hinsecure
  exact hharmless.characters c hc hbad

/-- **Only a line terminator lets a request through** that it should not. -/
theorem harmless_iff (baseDirectory uri : String) :
    Harmless baseDirectory uri ↔ ¬ Slips uri := by
  constructor
  · exact fun h hslips => hslips.not_harmless baseDirectory h
  · intro h result hresult
    obtain ⟨path, hdecode, hslash, hunmarked, hsecure, rfl⟩ :=
      sanitizeUri_eq_ok_some_iff.mp hresult
    refine ⟨indexed path, rfl, forall_splitOn_indexed hunmarked, ?_⟩
    intro c hc hbad
    have hinsecure := isInsecure_indexed_iff.mp ⟨c, hc, hbad⟩
    rw [insecureUri_iff] at hsecure
    simp only [hinsecure, true_and, not_forall, not_not] at hsecure
    obtain ⟨c, hc, hline⟩ := hsecure
    exact h ⟨path, hdecode, hslash, hunmarked, hinsecure, c, hc, hline⟩

/-- A line feed in front of a tag. -/
theorem not_forall_harmless : ¬ ∀ baseDirectory uri, Harmless baseDirectory uri := by
  intro h
  have hresult : sanitizeUri "WebContent" "/%0A%3Cscript%3E" =
      .ok (some ("WebContent" ++ "/" ++ "/\n<script>")) := by decide +kernel
  obtain ⟨path, hpath, hharmless⟩ := h _ _ _ hresult
  obtain rfl := (String.append_right_inj _).mp hpath
  exact hharmless.characters '<' (by decide) (by decide)

/-- Every path of this kind has a URI. -/
theorem slips_encode {path : String} (hslash : path.toList.head? = some '/')
    (hunmarked : Text.Unmarked '/' '.' path.toList) (hinsecure : ∃ c ∈ path.toList, IsInsecure c)
    (hline : ∃ c ∈ path.toList, IsLineTerminator c) : Slips (Percent.encode path) :=
  ⟨path, Percent.decode_encode path, hslash, hunmarked, hinsecure, hline⟩

end HttpHandler

end Gwems
