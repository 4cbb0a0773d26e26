import Gwems.Servers.StaticFiles

/-!
# Browsing the static files

A browser that follows the links of the pages, and is redirected, gets exactly what the names that
are allowed in pages lead to (`browsed_iff`): each link leads to the file of its name, and no other
text of a page is a link.

The server writes URIs into its answers as they were sent, and a browser reads them by the rules for
references: what begins with two slashes names another host, and a query is not part of the path. So
the browser must not start at such a URI (`IsPath`); from `//` the redirection to `//js/` would take
it to a host `js`.
-/

namespace Gwems

namespace HttpHandler

variable {s : Server} {uri path name : String} {place names : List String} {canRead : Bool}

/-! ### The links of a page -/

/-- What a link begins with. -/
def linkStart : List Char := "<a href=\"".toList

/-- The links that a browser finds in a page. -/
def hrefs : List Char → List (List Char)
  | [] => []
  | c :: l =>
    (if linkStart.isPrefixOf (c :: l) then
      [((c :: l).drop linkStart.length).takeWhile (· ≠ '"')] else []) ++ hrefs l

/-- A text in which no link begins. -/
structure Quiet (l : List Char) : Prop where
  chain : l.IsChain fun a b => ¬(a = '<' ∧ b = 'a')
  last : l.getLast? ≠ some '<'

instance (l : List Char) : Decidable (Quiet l) :=
  decidable_of_iff (l.IsChain (fun a b => ¬(a = '<' ∧ b = 'a')) ∧ l.getLast? ≠ some '<')
    ⟨fun h => ⟨h.1, h.2⟩, fun h => ⟨h.chain, h.last⟩⟩

theorem Quiet.of_cons {c : Char} {l : List Char} (h : Quiet (c :: l)) : Quiet l := by
  refine ⟨h.chain.tail, fun hlast => h.last ?_⟩
  rw [List.getLast?_cons, hlast]
  rfl

theorem hrefs_append_of_quiet {l : List Char} (h : Quiet l) (m : List Char) :
    hrefs (l ++ m) = hrefs m := by
  induction l with
  | nil => rfl
  | cons c l ih =>
    rw [List.cons_append, hrefs, ih h.of_cons, if_neg, List.nil_append]
    intro hprefix
    cases l with
    | nil =>
      obtain ⟨rest, hrest⟩ := List.isPrefixOf_iff_prefix.mp hprefix
      exact h.last (by rw [← (List.cons.inj hrest).1]; rfl)
    | cons b l =>
      obtain ⟨rest, hrest⟩ := List.isPrefixOf_iff_prefix.mp hprefix
      obtain ⟨hc, hrest⟩ := List.cons.inj hrest
      exact (List.isChain_cons_cons.mp h.chain).1 ⟨hc.symm, (List.cons.inj hrest).1.symm⟩

theorem quiet_of_notMem {l : List Char} (h : '<' ∉ l) : Quiet l := by
  refine ⟨?_, fun hlast => h (List.mem_of_getLast? hlast)⟩
  refine List.isChain_iff_forall_rel_of_append_cons_cons.mpr ?_
  rintro a b l₁ l₂ rfl ⟨rfl, -⟩
  exact h (by simp)

/-- One line of a page. -/
theorem hrefs_line {href text : List Char} (hhref : '"' ∉ href ∧ '<' ∉ href) (htext : '<' ∉ text)
    (m : List Char) :
    hrefs ("<li>".toList ++ (linkStart ++ (href ++ ("\">".toList ++ (text ++
      ("</a></li>\r\n".toList ++ m)))))) = href :: hrefs m := by
  have hstart : ∀ rest, hrefs (linkStart ++ rest) =
      rest.takeWhile (· ≠ '"') :: hrefs ("a href=\"".toList ++ rest) := by
    intro rest
    have hprefix : linkStart.isPrefixOf (linkStart ++ rest) = true :=
      List.isPrefixOf_iff_prefix.mpr (List.prefix_append _ _)
    rw [show linkStart ++ rest = '<' :: ("a href=\"".toList ++ rest) from rfl] at hprefix ⊢
    rw [hrefs, if_pos hprefix]
    rfl
  have htake : (href ++ ("\">".toList ++ (text ++ ("</a></li>\r\n".toList ++ m)))).takeWhile
      (· ≠ '"') = href := by
    rw [Text.takeWhile_append_of_head? (by simp)]
    exact List.takeWhile_eq_self_iff.mpr fun c hc =>
      decide_eq_true (ne_of_mem_of_not_mem hc hhref.1)
  have hitem : Quiet "<li>".toList := by decide +kernel
  have hrest : Quiet "a href=\"".toList := by decide +kernel
  have hclose : Quiet "\">".toList := by decide +kernel
  have hend : Quiet "</a></li>\r\n".toList := by decide +kernel
  rw [hrefs_append_of_quiet hitem, hstart, htake, hrefs_append_of_quiet hrest,
    hrefs_append_of_quiet (quiet_of_notMem hhref.2), hrefs_append_of_quiet hclose,
    hrefs_append_of_quiet (quiet_of_notMem htext), hrefs_append_of_quiet hend]

theorem hrefs_items (h : ∀ name ∈ names, '"' ∉ name.toList ∧ '<' ∉ name.toList) (m : List Char) :
    hrefs ((names.flatMap item).flatMap String.toList ++ m) =
      names.map String.toList ++ hrefs m := by
  induction names with
  | nil => rfl
  | cons name names ih =>
    obtain ⟨hname, hnames⟩ := List.forall_mem_cons.mp h
    have hstart : "<li><a href=\"".toList = "<li>".toList ++ linkStart := rfl
    rw [List.flatMap_cons, List.flatMap_append, item]
    simp only [List.flatMap_cons, List.flatMap_nil, List.append_assoc, List.nil_append,
      -String.reduceToList]
    rw [hstart, List.append_assoc, hrefs_line hname hname.2, ih hnames]
    rfl

/-- **A page links what it shows**, and the directory above. -/
theorem hrefs_listingPage {dirPath : String} (hdir : '<' ∉ dirPath.toList)
    (h : ∀ name ∈ names, '"' ∉ name.toList ∧ '<' ∉ name.toList) :
    hrefs (listingPage dirPath names).toList = "../".toList :: names.map String.toList := by
  have hdir := quiet_of_notMem hdir
  have hup : "<li><a href=\"../\">..</a></li>\r\n".toList = "<li>".toList ++ (linkStart ++
      ("../".toList ++ ("\">".toList ++ ("..".toList ++ "</a></li>\r\n".toList)))) := by
    decide +kernel
  have hend : hrefs "</ul></body></html>\r\n".toList = [] := by decide +kernel
  have hdoctype : Quiet "<!DOCTYPE html>\r\n".toList := by decide +kernel
  have htitle : Quiet "<html><head><title>".toList := by decide +kernel
  have hof : Quiet "Listing of: ".toList := by decide +kernel
  have hbody : Quiet "</title></head><body>\r\n".toList := by decide +kernel
  have hheading : Quiet "<h3>Listing of: ".toList := by decide +kernel
  have hlist : Quiet "</h3>\r\n".toList := by decide +kernel
  have hul : Quiet "<ul>".toList := by decide +kernel
  have hhref : '"' ∉ "../".toList ∧ '<' ∉ "../".toList := by decide
  have htext : '<' ∉ "..".toList := by decide
  rw [listingPage, String.toList_join, List.flatMap_append, List.flatMap_append]
  simp only [List.flatMap_cons, List.flatMap_nil, List.append_assoc, List.append_nil,
    -String.reduceToList]
  rw [hup]
  simp only [List.append_assoc, -String.reduceToList]
  rw [hrefs_append_of_quiet hdoctype, hrefs_append_of_quiet htitle, hrefs_append_of_quiet hof,
    hrefs_append_of_quiet hdir, hrefs_append_of_quiet hbody, hrefs_append_of_quiet hheading,
    hrefs_append_of_quiet hdir, hrefs_append_of_quiet hlist, hrefs_append_of_quiet hul,
    hrefs_line hhref htext, hrefs_items h, hend, List.append_nil]

/-! ### Browsing -/

/-- The URI for a reference in the answer to a URI, if it is on the same server: two slashes stand
in front of a host; one, in front of a path; and anything else takes the place of what stands behind
the last slash of the path. The reference has no scheme. -/
def resolve (uri : String) (reference : List Char) : Option String :=
  if ['/', '/'] <+: reference then none
  else if reference.head? = some '/' then some (String.ofList reference)
  else some (String.ofList
    ((uri.toList.takeWhile (· ≠ '?')).rdropWhile (· ≠ '/') ++ reference))

/-- What a browser asks the server for when it follows links downwards and redirections. -/
inductive Browsed (s : Server) (start : String) : String → Prop
  | start : Browsed s start start
  | link {uri uri' page : String} {href : List Char} (h : Browsed s start uri)
      (hpage : answer s uri = .ok (.listing page)) (hhref : href ∈ hrefs page.toList)
      (hdown : href ≠ "../".toList) (huri : resolve uri href = some uri') : Browsed s start uri'
  | redirect {uri uri' location : String} (h : Browsed s start uri)
      (hredirect : answer s uri = .ok (.redirect location))
      (huri : resolve uri location.toList = some uri') : Browsed s start uri'

/-- The characters of the path of a URI. -/
def IsPathChar (c : Char) : Prop :=
  c.isAlphanum ∨ c ∈ ['-', '.', '_', '~', '!', '$', '&', '\'', '(', ')', '*', '+', ',', ';', '=',
    ':', '@', '%', '/']

instance : DecidablePred IsPathChar := fun _ => inferInstanceAs (Decidable (_ ∨ _))

/-- A path without a query, which does not look like a host. -/
structure IsPath (uri : String) : Prop where
  chars : ∀ c ∈ uri.toList, IsPathChar c
  slash : uri.toList.head? = some '/'
  host : ¬['/', '/'] <+: uri.toList

/-- The places that shown names lead to. -/
inductive Linked (s : Server) (start : List String) : List String → Prop
  | start : Linked s start start
  | child {place names : List String} {name : String} (h : Linked s start place)
      (hdirectory : s.files.entry (s.at place) = some (.directory true names))
      (hname : name ∈ shown s.files (s.at place) names)
      (hdot : name.toList.getLast? ≠ some '.') : Linked s start (place ++ [name])

/-- The characters of an allowed name. -/
theorem allowedFileName_char (h : allowedFileName name = true) :
    (∃ c ∈ name.toList.head?, c.isAlphanum = true) ∧
      ∀ c ∈ name.toList, c = '-' ∨ c = '_' ∨ c.isAlphanum = true ∨ c = '.' := by
  rw [allowedFileName] at h
  split at h
  next c l heq =>
    rw [heq]
    obtain ⟨hc, hl⟩ := Bool.and_eq_true_iff.mp h
    refine ⟨⟨c, rfl, hc⟩, fun d hd => ?_⟩
    rcases List.mem_cons.mp hd with rfl | hd
    · exact .inr (.inr (.inl hc))
    · simpa [or_assoc] using List.all_eq_true.mp hl d hd
  next => cases h

/-- An allowed name has no character that means anything in a URI or in a page. -/
theorem notMem_of_allowed (h : allowedFileName name = true) {c : Char} (hc : c.isAlphanum = false)
    (hc' : c ∉ ['-', '_', '.']) : c ∉ name.toList := by
  intro hmem
  rcases (allowedFileName_char h).2 c hmem with rfl | rfl | halnum | rfl
  · exact hc' (by decide)
  · exact hc' (by decide)
  · rw [hc] at halnum
    cases halnum
  · exact hc' (by decide)

theorem ne_empty_of_allowed (h : allowedFileName name = true) : name ≠ "" := by
  rintro rfl
  cases h

theorem head?_of_allowed (h : allowedFileName name = true) : name.toList.head? ≠ some '.' := by
  obtain ⟨c, hc, halnum⟩ := (allowedFileName_char h).1
  rw [hc]
  rintro ⟨⟩
  cases halnum

theorem isPlain_of_allowed (h : allowedFileName name = true) :
    ∀ c ∈ name.toList, Percent.IsPlain c := by
  intro c hc
  constructor
  · rintro rfl
    exact notMem_of_allowed h (by decide) (by decide) hc
  · rintro rfl
    exact notMem_of_allowed h (by decide) (by decide) hc

theorem isPathChar_of_allowed (h : allowedFileName name = true) :
    ∀ c ∈ name.toList, IsPathChar c := by
  intro c hc
  rcases (allowedFileName_char h).2 c hc with rfl | rfl | halnum | rfl
  · decide
  · decide
  · exact .inl halnum
  · decide

theorem not_isInsecure_of_allowed (h : allowedFileName name = true) :
    ∀ c ∈ name.toList, ¬IsInsecure c := by
  intro c hc hinsecure
  simp only [IsInsecure, List.mem_cons, List.not_mem_nil, or_false] at hinsecure
  rcases hinsecure with rfl | rfl | rfl | rfl
  all_goals exact notMem_of_allowed h (by decide) (by decide) hc

theorem components_of_allowed (h : allowedFileName name = true) : components name = [name] := by
  have hproper : Proper [name] := fun n hn =>
    List.mem_singleton.mp hn ▸ ⟨ne_empty_of_allowed h, notMem_of_allowed h (by decide) (by decide)⟩
  simpa using components_intercalate hproper

/-- A URI with a slash at its end is that of a text with a slash at its end. -/
theorem exists_of_decode_slash {decoded : String} (hdecode : Percent.decode uri = .ok decoded)
    (hslash : uri.toList.getLast? = some '/') : ∃ q, decoded = q ++ "/" := by
  obtain ⟨l, hl⟩ := List.getLast?_eq_some_iff.mp hslash
  rw [Percent.decode, hl] at hdecode
  cases hlist : Percent.decodeList [] (l ++ ['/']) with
  | error e => rw [hlist] at hdecode; cases hdecode
  | ok p =>
    rw [hlist] at hdecode
    obtain ⟨q, -, rfl⟩ := Percent.decodeList_concat (by decide) (by decide) (by decide) hlist
    refine ⟨String.ofList q, ?_⟩
    rw [← Except.ok.inj hdecode, ← String.toList_inj]
    simp

/-- What a URI names has the URI decoded. -/
theorem Names.exists_decode (h : Names s uri place) :
    ∃ decoded, Percent.decode uri = .ok decoded := by
  obtain ⟨path, hpath, -⟩ := h
  obtain ⟨decoded, hdecode, -⟩ := sanitizeUri_eq_ok_some_iff.mp hpath
  exact ⟨decoded, hdecode⟩

/-- A request for anything but the index. -/
structure NamesFile (s : Server) (uri : String) (place : List String) : Prop where
  names : Names s uri place
  root : Percent.decode uri ≠ .ok "/"

theorem namesFile_iff {decoded : String} (hdecode : Percent.decode uri = .ok decoded) :
    NamesFile s uri place ↔ decoded ≠ "/" ∧ decoded.toList.head? = some '/' ∧
      (∀ name ∈ place, name.toList.head? ≠ some '.' ∧ name.toList.getLast? ≠ some '.') ∧
      ¬InsecureUri decoded.toList ∧ components decoded = place := by
  constructor
  · rintro ⟨hnames, hroot⟩
    have hne : decoded ≠ "/" := fun heq => hroot (heq ▸ hdecode)
    exact ⟨hne, (names_iff hdecode hne).mp hnames⟩
  · rintro ⟨hne, h⟩
    exact ⟨(names_iff hdecode hne).mpr h,
      fun hroot => hne (Except.ok.inj (hdecode.symm.trans hroot))⟩

/-- Plain characters behind a URI that make it no less secure. -/
theorem NamesFile.append (h : NamesFile s uri place) {t : String} (ht : t ≠ "")
    (hplain : ∀ c ∈ t.toList, Percent.IsPlain c) (hinsecure : ∀ c ∈ t.toList, ¬IsInsecure c)
    {place' : List String} (hplace : ∀ decoded, Percent.decode uri = .ok decoded →
      components decoded = place → components (decoded ++ t) = place')
    (hdots : ∀ name ∈ place', name.toList.head? ≠ some '.' ∧ name.toList.getLast? ≠ some '.') :
    NamesFile s (uri ++ t) place' := by
  obtain ⟨decoded, hdecode⟩ := h.names.exists_decode
  obtain ⟨-, hslash, -, hsecure, hcomponents⟩ := (namesFile_iff hdecode).mp h
  refine (namesFile_iff (Percent.decode_append hplain hdecode)).mpr ⟨?_, ?_, hdots, ?_,
    hplace decoded hdecode hcomponents⟩
  · intro heq
    rw [← String.toList_inj, String.toList_append] at heq
    have hlength := congrArg List.length heq
    rw [List.length_append] at hlength
    have hdecoded : decoded.toList ≠ [] := by
      intro hnil
      rw [hnil] at hslash
      cases hslash
    have htext : t.toList ≠ [] := fun hnil => ht (String.toList_inj.mp hnil)
    have hpos := List.length_pos_of_ne_nil hdecoded
    have hpos' := List.length_pos_of_ne_nil htext
    have hone : "/".toList.length = 1 := rfl
    omega
  · rw [String.toList_append, List.head?_append, hslash, Option.some_or]
  · rw [insecureUri_iff] at hsecure ⊢
    rintro ⟨⟨c, hc, hbad⟩, hnone⟩
    rw [String.toList_append] at hc hnone
    rcases List.mem_append.mp hc with hc | hc
    · exact hsecure ⟨⟨c, hc, hbad⟩, fun c hc => hnone c (List.mem_append_left _ hc)⟩
    · exact hinsecure c hc hbad

theorem NamesFile.ne_slash (h : NamesFile s uri place) : uri ≠ "/" := by
  rintro rfl
  exact h.root (by decide +kernel)

/-- A redirection is to the same place. -/
theorem NamesFile.slash (h : NamesFile s uri place) : NamesFile s (uri ++ "/") place :=
  h.append (by decide) (by simp [Percent.IsPlain]) (by simp [IsInsecure])
    (fun decoded _ hplace => (components_append_slash decoded).trans hplace) h.names.nameable.dots

theorem components_child {q : String} (hname : allowedFileName name = true) :
    components (q ++ "/" ++ name) = components (q ++ "/") ++ [name] := by
  rw [components_join, components_append_slash, components_of_allowed hname]

/-- A link is to the file of its name. -/
theorem NamesFile.child (h : NamesFile s uri place) (hslash : uri.toList.getLast? = some '/')
    (hname : allowedFileName name = true) (hdot : name.toList.getLast? ≠ some '.') :
    NamesFile s (uri ++ name) (place ++ [name]) := by
  refine h.append (ne_empty_of_allowed hname) (isPlain_of_allowed hname)
    (not_isInsecure_of_allowed hname) ?_ ?_
  · intro decoded hdecode hplace
    obtain ⟨q, rfl⟩ := exists_of_decode_slash hdecode hslash
    rw [components_child hname, hplace]
  · exact List.forall_mem_append.mpr ⟨h.names.nameable.dots, by
      simpa using ⟨head?_of_allowed hname, hdot⟩⟩

/-- A name with a dot at its end is refused. -/
theorem NamesFile.forbidden (h : NamesFile s uri place) (hslash : uri.toList.getLast? = some '/')
    (hname : allowedFileName name = true) (hdot : name.toList.getLast? = some '.') :
    answer s (uri ++ name) = .ok (.error .forbidden) := by
  obtain ⟨decoded, hdecode⟩ := h.names.exists_decode
  obtain ⟨q, rfl⟩ := exists_of_decode_slash hdecode hslash
  have hdecode' := Percent.decode_append (isPlain_of_allowed hname) hdecode
  have hnone : ∀ path, sanitizeUri s.baseDirectory (uri ++ name) ≠ .ok (some path) := by
    intro path hpath
    obtain ⟨decoded', hdecode'', -, hunmarked, -⟩ := sanitizeUri_eq_ok_some_iff.mp hpath
    obtain rfl := Except.ok.inj (hdecode'.symm.trans hdecode'')
    refine (unmarked_iff_components.mp hunmarked name ?_).2 hdot
    rw [components_child hname]
    exact List.mem_append_right _ (List.mem_singleton_self name)
  have hsanitize : sanitizeUri s.baseDirectory (uri ++ name) = .ok none := by
    cases hresult : sanitizeUri s.baseDirectory (uri ++ name) with
    | error e =>
      rw [sanitizeUri, hdecode'] at hresult
      simp only [bind, Except.bind, pure, Except.pure] at hresult
      split at hresult <;> [cases hresult; split at hresult <;> cases hresult]
    | ok result =>
      cases result with
      | none => rfl
      | some path => exact absurd hresult (hnone path)
  rw [answer, staticChannelRead0]
  simp only [Bool.not_true, Bool.false_eq_true, if_false, hsanitize]

/-- What the names on the way to a place have not, the page of the place has only in its links. -/
theorem Server.hrefs_page (s : Server) (hproper : Proper place)
    (hplain : ∀ name ∈ s.at place, '<' ∉ name.toList) (names : List String) :
    hrefs (s.page place names).toList =
      "../".toList :: (shown s.files (s.at place) names).map String.toList := by
  have hcomponents : components (s.baseDirectory ++ pathOf place) = s.at place := by
    rw [pathOf, ← String.append_assoc, components_join, components_intercalate hproper]
    rfl
  refine hrefs_listingPage ?_ fun name hname => ?_
  · have hpath : components (getPath (s.baseDirectory ++ pathOf place)) = s.at place := by
      have hproper' : Proper (s.at place) := hcomponents ▸ fun name hname => of_mem_components hname
      rw [getPath, hcomponents]
      split
      · rw [components_slash, components_intercalate hproper']
      · rw [String.empty_append, components_intercalate hproper']
    intro hmem
    obtain ⟨name, hname, c, hc, rfl⟩ := (exists_mem_components_iff (P := (· = '<'))
      (by decide)).mpr ⟨_, hmem, rfl⟩
    exact hplain name (hpath ▸ hname) hc
  · have hallowed := (Bool.and_eq_true_iff.mp (List.mem_filter.mp hname).2).2
    exact ⟨notMem_of_allowed hallowed (by decide) (by decide),
      notMem_of_allowed hallowed (by decide) (by decide)⟩

/-- What stands behind a path makes it no host, unless the path is a slash. -/
theorem IsPath.append (h : IsPath uri) (hne : uri ≠ "/") {t : String}
    (ht : ∀ c ∈ t.toList, IsPathChar c) : IsPath (uri ++ t) := by
  refine ⟨fun c hc => ?_, ?_, fun hprefix => ?_⟩
  · rw [String.toList_append] at hc
    exact (List.mem_append.mp hc).elim (h.chars c) (ht c)
  · rw [String.toList_append, List.head?_append, h.slash, Option.some_or]
  · obtain ⟨l, hl⟩ := List.head?_eq_some_iff.mp h.slash
    have hlength : ['/', '/'].length ≤ uri.toList.length := by
      cases l with
      | nil => exact absurd (String.toList_inj.mp hl) hne
      | cons c l => simp [hl]
    rw [String.toList_append] at hprefix
    exact h.host (List.prefix_of_prefix_length_le hprefix (List.prefix_append _ _) hlength)

/-- A path refers to itself. -/
theorem IsPath.resolve_self (h : IsPath uri) (uri' : String) :
    resolve uri' uri.toList = some uri := by
  rw [resolve, if_neg h.host, if_pos h.slash, String.ofList_toList]

/-- A name takes the place behind the last slash. -/
theorem IsPath.resolve_name (h : IsPath uri) (hslash : uri.toList.getLast? = some '/')
    {href : List Char} (hhref : href.head? ≠ some '/') :
    resolve uri href = some (uri ++ String.ofList href) := by
  obtain ⟨l, hl⟩ := List.getLast?_eq_some_iff.mp hslash
  have hquery : uri.toList.takeWhile (· ≠ '?') = uri.toList := by
    refine List.takeWhile_eq_self_iff.mpr fun c hc => decide_eq_true ?_
    rintro rfl
    exact absurd (h.chars _ hc) (by decide)
  have hhost : ¬['/', '/'] <+: href := by
    rintro ⟨rest, rfl⟩
    exact hhref rfl
  rw [resolve, if_neg hhost, if_neg hhref, hquery, hl, List.rdropWhile_concat_neg _ _ _ (by simp),
    ← hl, Option.some_inj, ← String.toList_inj]
  simp

theorem Names.proper (h : Names s uri place) : Proper place := by
  obtain ⟨path, -, rfl⟩ := h
  exact fun name hname => of_mem_components hname

/-- A redirection adds a slash. -/
theorem Names.of_redirect (h : Names s uri place) {location : String}
    (hredirect : answer s uri = .ok (.redirect location)) : location = uri ++ "/" := by
  rw [answer, h.staticChannelRead0_eq (isGet_uri uri) rfl] at hredirect
  split at hredirect
  next => cases hredirect
  next =>
    split at hredirect
    next => split at hredirect <;> cases hredirect
    next => exact (Response.redirect.inj (Except.ok.inj hredirect)).symm
  next => cases hredirect
  next canRead _ _ _ =>
    cases canRead
    · cases hredirect
    · cases hredirect

/-- A shown name is allowed. -/
theorem allowed_of_mem_shown (h : name ∈ shown s.files (s.at place) names) :
    allowedFileName name = true :=
  (Bool.and_eq_true_iff.mp (List.mem_filter.mp h).2).2

theorem Linked.plain (hplain : ∀ name ∈ s.at place, '<' ∉ name.toList) {place' : List String}
    (h : Linked s place place') : ∀ name ∈ s.at place', '<' ∉ name.toList := by
  induction h with
  | start => exact hplain
  | child h hdirectory hname hdot ih =>
    rw [Server.at, ← List.append_assoc]
    refine List.forall_mem_append.mpr ⟨ih, ?_⟩
    simpa using notMem_of_allowed (c := '<') (allowed_of_mem_shown hname) (by decide) (by decide)

/-- A link leads to the file of its name. -/
theorem IsPath.resolve_child (h : IsPath uri) (hslash : uri.toList.getLast? = some '/')
    (hname : allowedFileName name = true) :
    resolve uri name.toList = some (uri ++ name) := by
  rw [h.resolve_name hslash, String.ofList_toList]
  intro hhead
  exact notMem_of_allowed hname (by decide) (by decide) (List.mem_of_mem_head? hhead)

/-- What a browser is answered: it is at a place that names lead to, or is refused. -/
theorem Browsed.namesFile_or (hstart : NamesFile s uri place) (hpath : IsPath uri)
    (hplain : ∀ name ∈ s.at place, '<' ∉ name.toList) {uri' : String} (h : Browsed s uri uri') :
    (∃ place', NamesFile s uri' place' ∧ IsPath uri' ∧ Linked s place place') ∨
      answer s uri' = .ok (.error .forbidden) := by
  induction h with
  | start => exact .inl ⟨place, hstart, hpath, .start⟩
  | @link uri₁ uri₂ page href h hpage hhref hdown huri ih =>
    rcases ih with ⟨place', hnames, hpath, hlinked⟩ | hforbidden
    · obtain ⟨names, hentry, rfl, hslash⟩ := hnames.names.of_listing (isGet_uri uri₁) rfl hpage
      rw [s.hrefs_page hnames.names.proper (hlinked.plain hplain), List.mem_cons] at hhref
      obtain ⟨name, hname, rfl⟩ := List.mem_map.mp (hhref.resolve_left hdown)
      have hallowed := allowed_of_mem_shown hname
      rw [hpath.resolve_child hslash hallowed] at huri
      obtain rfl := Option.some.inj huri
      by_cases hdot : name.toList.getLast? = some '.'
      · exact .inr (hnames.forbidden hslash hallowed hdot)
      · exact .inl ⟨_, hnames.child hslash hallowed hdot,
          hpath.append hnames.ne_slash (isPathChar_of_allowed hallowed),
          hlinked.child hentry hname hdot⟩
    · rw [hforbidden] at hpage
      cases hpage
  | @redirect uri₁ uri₂ location h hredirect huri ih =>
    rcases ih with ⟨place', hnames, hpath, hlinked⟩ | hforbidden
    · obtain rfl := hnames.names.of_redirect hredirect
      have hslash := hpath.append hnames.ne_slash (t := "/") (by simp [IsPathChar])
      rw [hslash.resolve_self] at huri
      obtain rfl := Option.some.inj huri
      exact .inl ⟨place', hnames.slash, hslash, hlinked⟩
    · rw [hforbidden] at hredirect
      cases hredirect

/-- A browser that gets to a directory gets to its page. -/
theorem Browsed.exists_slash {uri' : String} (h : Browsed s uri uri')
    (hnames : NamesFile s uri' place) (hpath : IsPath uri')
    (hdirectory : s.files.entry (s.at place) = some (.directory canRead names)) :
    ∃ uri', Browsed s uri uri' ∧ NamesFile s uri' place ∧ IsPath uri' ∧
      uri'.toList.getLast? = some '/' := by
  by_cases hslash : uri'.toList.getLast? = some '/'
  · exact ⟨uri', h, hnames, hpath, hslash⟩
  · have hredirect : answer s uri' = .ok (.redirect (uri' ++ "/")) := by
      rw [answer, hnames.names.staticChannelRead0_eq (isGet_uri uri') rfl, hdirectory]
      simp only [hslash, if_false]
    have hpath' := hpath.append hnames.ne_slash (t := "/") (by simp [IsPathChar])
    exact ⟨uri' ++ "/", h.redirect hredirect (hpath'.resolve_self uri'), hnames.slash, hpath',
      by simp⟩

/-- A browser gets to every place that names lead to. -/
theorem Linked.exists_browsed (hstart : NamesFile s uri place) (hpath : IsPath uri)
    (hplain : ∀ name ∈ s.at place, '<' ∉ name.toList) {place' : List String}
    (h : Linked s place place') :
    ∃ uri', Browsed s uri uri' ∧ NamesFile s uri' place' ∧ IsPath uri' := by
  induction h with
  | start => exact ⟨uri, .start, hstart, hpath⟩
  | @child place' names name h hdirectory hname hdot ih =>
    obtain ⟨uri', hbrowsed, hnames, hpath'⟩ := ih
    obtain ⟨uri', hbrowsed, hnames, hpath', hslash⟩ :=
      hbrowsed.exists_slash hnames hpath' hdirectory
    have hallowed := allowed_of_mem_shown hname
    have hhref : name.toList ∈ hrefs (s.page place' names).toList := by
      rw [s.hrefs_page hnames.names.proper (h.plain hplain)]
      exact List.mem_cons_of_mem _ (List.mem_map_of_mem hname)
    have hdown : name.toList ≠ "../".toList := fun heq =>
      head?_of_allowed hallowed (by rw [heq]; rfl)
    exact ⟨uri' ++ name, hbrowsed.link (hnames.names.listing_of_entry hdirectory hslash) hhref hdown
      (hpath'.resolve_child hslash hallowed), hnames.child hslash hallowed hdot,
      hpath'.append hnames.ne_slash (isPathChar_of_allowed hallowed)⟩

/-- **What a browser gets.** A browser that starts at the path of a place, follows the links of the
pages downwards and is redirected gets exactly the contents of the readable files, and the pages of
the readable directories, that shown names lead to, none of which ends with a dot. -/
theorem browsed_iff (hstart : NamesFile s uri place) (hpath : IsPath uri)
    (hplain : ∀ name ∈ s.at place, '<' ∉ name.toList) :
    (∀ content, (∃ uri' headers, Browsed s uri uri' ∧
        answer s uri' = .ok (.file headers content)) ↔
      ∃ place' lastModified, Linked s place place' ∧
        s.files.entry (s.at place') = some (.file true content lastModified)) ∧
    ∀ page, (∃ uri', Browsed s uri uri' ∧ answer s uri' = .ok (.listing page)) ↔
      ∃ place' names, Linked s place place' ∧
        s.files.entry (s.at place') = some (.directory true names) ∧
        page = s.page place' names := by
  refine ⟨fun content => ⟨?_, ?_⟩, fun page => ⟨?_, ?_⟩⟩
  · rintro ⟨uri', headers, hbrowsed, hanswer⟩
    rcases hbrowsed.namesFile_or hstart hpath hplain with
      ⟨place', hnames, -, hlinked⟩ | hforbidden
    · obtain ⟨lastModified, hentry, -⟩ := hnames.names.of_file (isGet_uri uri') rfl hanswer
      exact ⟨place', lastModified, hlinked, hentry⟩
    · rw [hforbidden] at hanswer
      cases hanswer
  · rintro ⟨place', lastModified, hlinked, hentry⟩
    obtain ⟨uri', hbrowsed, hnames, -⟩ := hlinked.exists_browsed hstart hpath hplain
    exact ⟨uri', _, hbrowsed, hnames.names.file_of_entry hentry⟩
  · rintro ⟨uri', hbrowsed, hanswer⟩
    rcases hbrowsed.namesFile_or hstart hpath hplain with
      ⟨place', hnames, -, hlinked⟩ | hforbidden
    · obtain ⟨names, hentry, hpage, -⟩ := hnames.names.of_listing (isGet_uri uri') rfl hanswer
      exact ⟨place', names, hlinked, hentry, hpage⟩
    · rw [hforbidden] at hanswer
      cases hanswer
  · rintro ⟨place', names, hlinked, hentry, rfl⟩
    obtain ⟨uri', hbrowsed, hnames, hpath'⟩ := hlinked.exists_browsed hstart hpath hplain
    obtain ⟨uri', hbrowsed, hnames, -, hslash⟩ := hbrowsed.exists_slash hnames hpath' hentry
    exact ⟨uri', hbrowsed, hnames.names.listing_of_entry hentry hslash⟩

/-! ### A site -/

/-- A directory with a page and a directory with a script. -/
def site : FileSystem := .ofList [
  ([], .directory true ["WebContent"]),
  (["WebContent"], .directory true ["index.html", "js"]),
  (["WebContent", "index.html"], .file true [60, 104, 49, 62] 5000),
  (["WebContent", "js"], .directory true ["GWEMS.js"]),
  (["WebContent", "js", "GWEMS.js"], .file true [47, 47] 5000)] (by decide +kernel)

/-- The server of the site, five seconds after the epoch. -/
def siteServer : Server where
  baseDirectory := "WebContent"
  files := site
  dates := firstDay
  mimeTypes path :=
    if ".html".toList <:+ path.toList then "text/html" else "application/octet-stream"
  now := 5000
  visible := by decide +kernel

/-- From the page of the scripts to the script. -/
theorem browsed_iff_script : ∃ uri headers, Browsed siteServer "/js" uri ∧
    answer siteServer uri = .ok (.file headers [47, 47]) := by
  have hdecode : Percent.decode "/js" = .ok "/js" := by decide +kernel
  have hnames : NamesFile siteServer "/js" ["js"] := (namesFile_iff hdecode).mpr
    ⟨by decide, by decide, by decide +kernel, by decide +kernel, by decide +kernel⟩
  have hpath : IsPath "/js" := ⟨by simp [IsPathChar], by decide, by decide⟩
  have hdirectory : siteServer.files.entry (siteServer.at ["js"]) =
      some (.directory true ["GWEMS.js"]) := by decide +kernel
  have hname : "GWEMS.js" ∈ shown siteServer.files (siteServer.at ["js"]) ["GWEMS.js"] := by
    decide +kernel
  have hlinked : Linked siteServer ["js"] ["js", "GWEMS.js"] :=
    Linked.start.child hdirectory hname (by decide)
  exact ((browsed_iff hnames hpath (by decide +kernel)).1 [47, 47]).mpr
    ⟨_, 5000, hlinked, by decide +kernel⟩

end HttpHandler

end Gwems
