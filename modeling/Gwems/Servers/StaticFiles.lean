import Gwems.Library.Machine
import Gwems.Servers.FileSystems
import Gwems.Servers.GwemsMainHttpHandler
import Gwems.Servers.HttpDates

/-!
# `GwemsMainHttpHandler.java`: what a request is answered

`staticChannelRead0` takes the path from `sanitizeUri` to the file system, and answers with a file,
a page of links to the files of a directory, a redirection to the name with a slash behind it, or an
error. An exception is logged, and there is no answer.

What can be got in this way is exactly what has a harmless path (`served_iff`), and what gets no
answer is exactly what cannot be decoded, listed or compared (`unanswered_iff`).
-/

namespace Gwems

namespace HttpHandler

/-! ### Requests and responses -/

inductive Method
  | get
  | post
  | other
deriving DecidableEq

/-- What the handler reads of a request. -/
structure Request where
  isSuccess : Bool := true
  is100ContinueExpected : Bool := false
  method : Method := .get
  uri : String
  ifModifiedSince : Option String := none
  isKeepAlive : Bool := true

inductive Status
  | badRequest
  | forbidden
  | notFound
  | methodNotAllowed
deriving DecidableEq

/-- A status as Netty writes it. -/
def Status.text : Status → String
  | badRequest => "400 Bad Request"
  | forbidden => "403 Forbidden"
  | notFound => "404 Not Found"
  | methodNotAllowed => "405 Method Not Allowed"

/-- The headers of a file. -/
structure FileHeaders where
  contentLength : ℕ
  contentType : String
  date : String
  expires : String
  cacheControl : String
  lastModified : String
  keepAlive : Bool
deriving DecidableEq

inductive Response
  /-- The interim response `CONTINUE`. -/
  | goOn
  | error (status : Status) (content : String := "Failure: " ++ status.text ++ "\r\n")
      (contentType : String := "text/plain; charset=UTF-8")
  /-- What the `postHandler` answers. -/
  | post
  | listing (page : String) (contentType : String := "text/html; charset=UTF-8")
  | redirect (location : String)
  | notModified (date : String)
  | file (headers : FileHeaders) (content : List UInt8)
deriving DecidableEq

/-- The exceptions of `staticChannelRead0`: of `URLDecoder`, of `SimpleDateFormat`, and of a
directory that cannot be listed. -/
inductive Failure
  | decode (e : Percent.Error)
  | parse
  | listFiles
deriving DecidableEq

/-- The handler with the files as they are and the time. `mimeTypes` is `getContentType(path)` of a
`MimetypesFileTypeMap`. -/
structure Server where
  baseDirectory : String
  files : FileSystem
  dates : DateFormat
  mimeTypes : String → String
  now : ℤ
  visible : isHidden (components baseDirectory) = false

/-- `HTTP_CACHE_SECONDS`. -/
def HTTP_CACHE_SECONDS : ℤ := 60

/-- The pattern `[A-Za-z0-9][-_A-Za-z0-9\\.]*`. -/
def allowedFileName (name : String) : Bool :=
  match name.toList with
  | c :: l => c.isAlphanum && l.all fun c => c == '-' || c == '_' || c.isAlphanum || c == '.'
  | [] => false

/-- The pieces of a page for a name. -/
def item (name : String) : List String :=
  ["<li><a href=\"", name, "\">", name, "</a></li>\r\n"]

/-- The names that a page shows. -/
def shown (files : FileSystem) (place : List String) (names : List String) : List String :=
  names.filter fun name => !isHidden (place ++ [name]) &&
    (files.entry (place ++ [name])).any Entry.canRead && allowedFileName name

/-- The page of `sendListing`, as it is appended to the buffer. -/
def listingPage (dirPath : String) (names : List String) : String :=
  String.join (["<!DOCTYPE html>\r\n", "<html><head><title>", "Listing of: ", dirPath,
    "</title></head><body>\r\n", "<h3>Listing of: ", dirPath, "</h3>\r\n",
    "<ul>", "<li><a href=\"../\">..</a></li>\r\n"] ++ names.flatMap item ++
    ["</ul></body></html>\r\n"])

/-- `sendListing(ctx, file)`. -/
def sendListing (files : FileSystem) (path : String) (canRead : Bool) (names : List String) :
    Except Failure Response :=
  if canRead then .ok (.listing (listingPage (getPath path) (shown files (components path) names)))
  -- `listFiles` returns null
  else .error .listFiles

/-- Cache validation: "only compare up to the second". -/
def isNotModified (dates : DateFormat) (ifModifiedSince : Option String) (lastModified : ℤ) :
    Except Failure Bool :=
  match ifModifiedSince with
  | none => .ok false
  | some text =>
    if text = "" then .ok false
    else match dates.parse text with
      | none => .error .parse
      | some date => .ok (date.tdiv 1000 = lastModified.tdiv 1000)

/-- The headers of `setDateAndCacheHeaders` and the others. -/
def fileHeaders (s : Server) (request : Request) (path : String) (content : List UInt8)
    (lastModified : ℤ) : FileHeaders where
  contentLength := content.length
  contentType := s.mimeTypes path
  date := s.dates.format s.now
  expires := s.dates.format (s.now + HTTP_CACHE_SECONDS * 1000)
  cacheControl := "private, max-age=" ++ toString HTTP_CACHE_SECONDS
  lastModified := s.dates.format lastModified
  keepAlive := request.isKeepAlive

/-- The end of `staticChannelRead0`, for a file. -/
def sendFile (s : Server) (request : Request) (path : String) (canRead : Bool)
    (content : List UInt8) (lastModified : ℤ) : Except Failure Response := do
  if ← isNotModified s.dates request.ifModifiedSince lastModified then
    return .notModified (s.dates.format s.now)
  if canRead then return .file (fileHeaders s request path content lastModified) content
  else return .error .notFound

/-- `staticChannelRead0(ctx, request)`. -/
def staticChannelRead0 (s : Server) (request : Request) : Except Failure Response :=
  if !request.isSuccess then .ok (.error .badRequest)
  else match request.method with
    | .post => .ok .post
    | .other => .ok (.error .methodNotAllowed)
    | .get =>
      match sanitizeUri s.baseDirectory request.uri with
      | .error e => .error (.decode e)
      | .ok none => .ok (.error .forbidden)
      | .ok (some path) =>
        if isHidden (components path) then .ok (.error .notFound)
        else match s.files.entry (components path) with
          | none => .ok (.error .notFound)
          | some (.directory canRead names) =>
            if request.uri.toList.getLast? = some '/' then sendListing s.files path canRead names
            else .ok (.redirect (request.uri ++ "/"))
          | some (.other _) => .ok (.error .forbidden)
          | some (.file canRead content lastModified) =>
            sendFile s request (getPath path) canRead content lastModified

/-- `channelRead(ctx, msg)` of an `HttpRequest`: what is written. -/
def channelRead (s : Server) (request : Request) : List Response :=
  (if request.is100ContinueExpected then [.goOn] else []) ++
    match staticChannelRead0 s request with
    | .ok response => [response]
    | .error _ => []

/-! ### What a request names -/

variable {s : Server} {uri path name : String} {place names : List String} {canRead : Bool}
  {content : List UInt8} {lastModified : ℤ}

/-- The request is for the file at this place below the base directory. -/
def Names (s : Server) (uri : String) (place : List String) : Prop :=
  ∃ path, sanitizeUri s.baseDirectory uri = .ok (some (s.baseDirectory ++ "/" ++ path)) ∧
    components path = place

/-- What can be requested: no name begins or ends with a dot, and an insecure character needs a line
terminator. -/
structure Nameable (place : List String) : Prop where
  dots : ∀ name ∈ place, name.toList.head? ≠ some '.' ∧ name.toList.getLast? ≠ some '.'
  characters : (∃ name ∈ place, ∃ c ∈ name.toList, IsInsecure c) →
    ∃ name ∈ place, ∃ c ∈ name.toList, IsLineTerminator c

/-- A character of a path, other than a slash, is in a name. -/
theorem exists_mem_components_iff {P : Char → Prop} (hP : ¬P '/') :
    (∃ name ∈ components path, ∃ c ∈ name.toList, P c) ↔ ∃ c ∈ path.toList, P c := by
  constructor
  · rintro ⟨name, hname, c, hc, hPc⟩
    obtain ⟨l, hl, rfl⟩ := List.mem_map.mp hname
    rw [String.toList_ofList] at hc
    exact ⟨c, Text.mem_of_mem_splitOn (List.mem_of_mem_filter hl) hc, hPc⟩
  · rintro ⟨c, hc, hPc⟩
    have hne : c ≠ '/' := fun heq => hP (heq ▸ hPc)
    obtain ⟨l, hl, hcl⟩ := Text.exists_mem_splitOn hc hne
    refine ⟨String.ofList l, List.mem_map_of_mem (List.mem_filter.mpr ⟨hl, ?_⟩), c, ?_, hPc⟩
    · exact decide_eq_true (List.ne_nil_of_mem hcl)
    · rwa [String.toList_ofList]

theorem Names.nameable (h : Names s uri place) : Nameable place := by
  obtain ⟨path, hpath, rfl⟩ := h
  obtain ⟨decoded, -, -, hunmarked, hsecure, heq⟩ := sanitizeUri_eq_ok_some_iff.mp hpath
  obtain rfl := (String.append_right_inj _).mp heq
  refine ⟨fun name hname => ?_, fun hinsecure => ?_⟩
  · obtain ⟨l, hl, rfl⟩ := List.mem_map.mp hname
    rw [String.toList_ofList]
    exact forall_splitOn_indexed hunmarked l (List.mem_of_mem_filter hl)
  · rw [exists_mem_components_iff (by decide)] at hinsecure ⊢
    rw [insecureUri_iff] at hsecure
    have hline : ∃ c ∈ decoded.toList, IsLineTerminator c := by
      by_contra hnone
      push Not at hnone
      exact hsecure ⟨isInsecure_indexed_iff.mp hinsecure, hnone⟩
    rw [indexed]
    split
    next h =>
      rw [h] at hline
      simp [IsLineTerminator] at hline
    next => exact hline

/-- A piece of a path is empty or a name. -/
theorem eq_nil_or_mem_components {l : List Char} (h : l ∈ path.toList.splitOn '/') :
    l = [] ∨ String.ofList l ∈ components path := by
  rw [or_iff_not_imp_left]
  exact fun hne => List.mem_map_of_mem (List.mem_filter.mpr ⟨h, decide_eq_true hne⟩)

/-- The dots in terms of names. -/
theorem unmarked_iff_components :
    Text.Unmarked '/' '.' path.toList ↔
      ∀ name ∈ components path, name.toList.head? ≠ some '.' ∧ name.toList.getLast? ≠ some '.' := by
  rw [← Text.forall_splitOn_iff (by decide)]
  constructor
  · intro h name hname
    obtain ⟨l, hl, rfl⟩ := List.mem_map.mp hname
    rw [String.toList_ofList]
    exact h l (List.mem_of_mem_filter hl)
  · intro h l hl
    rcases eq_nil_or_mem_components hl with rfl | hname
    · simp
    · simpa using h _ hname

/-- What a request names, unless it is for the index. -/
theorem names_iff {decoded : String} (hdecode : Percent.decode uri = .ok decoded)
    (hne : decoded ≠ "/") :
    Names s uri place ↔ decoded.toList.head? = some '/' ∧
      (∀ name ∈ place, name.toList.head? ≠ some '.' ∧ name.toList.getLast? ≠ some '.') ∧
      ¬InsecureUri decoded.toList ∧ components decoded = place := by
  have hindexed : indexed decoded = decoded := if_neg hne
  constructor
  · rintro ⟨path, hpath, rfl⟩
    obtain ⟨decoded', hdecode', hslash, hunmarked, hsecure, heq⟩ :=
      sanitizeUri_eq_ok_some_iff.mp hpath
    obtain rfl := Except.ok.inj (hdecode.symm.trans hdecode')
    rw [hindexed, String.append_right_inj] at heq
    subst heq
    exact ⟨hslash, unmarked_iff_components.mp hunmarked, hsecure, rfl⟩
  · rintro ⟨hslash, hdots, hsecure, rfl⟩
    refine ⟨decoded, sanitizeUri_eq_ok_some_iff.mpr ⟨decoded, hdecode, hslash,
      unmarked_iff_components.mpr hdots, hsecure, by rw [hindexed]⟩, rfl⟩

/-- **Every place of this kind has a request**, with a slash at the end. -/
theorem exists_names (s : Server) (hproper : Proper place) (h : Nameable place) :
    ∃ uri, Names s uri place ∧ uri.toList.getLast? = some '/' := by
  have hdecode :
      Percent.decode (Percent.encode (pathOf place) ++ "/") = .ok (pathOf place ++ "/") :=
    Percent.decode_append (by simp [Percent.IsPlain]) (Percent.decode_encode _)
  have hcomponents : components (pathOf place ++ "/") = place := by
    rw [components_append_slash, components_pathOf hproper]
  have hne : pathOf place ++ "/" ≠ "/" := by
    intro heq
    have hlength := congrArg (fun s : String => s.toList.length) heq
    simp [pathOf] at hlength
  refine ⟨_, (names_iff hdecode hne).mpr ⟨?_, h.dots, ?_, hcomponents⟩, by simp⟩
  · rw [pathOf, String.append_assoc, String.toList_append]
    rfl
  · rw [insecureUri_iff, ← exists_mem_components_iff (by decide), hcomponents]
    rintro ⟨hinsecure, hnone⟩
    have hnames : ∃ name ∈ components (pathOf place ++ "/"), ∃ c ∈ name.toList,
        IsLineTerminator c := hcomponents.symm ▸ h.characters hinsecure
    obtain ⟨c, hc, hline⟩ := (exists_mem_components_iff (by decide)).mp hnames
    exact hnone c hc hline

/-- What can be requested is not hidden. -/
theorem Nameable.isHidden_eq_false (h : Nameable place) (s : Server) :
    isHidden (components s.baseDirectory ++ place) = false := by
  cases hlast : place.getLast? with
  | none =>
    rw [List.getLast?_eq_none_iff.mp hlast, List.append_nil]
    exact s.visible
  | some name =>
    rw [isHidden, List.getLast?_append, hlast, Option.some_or, Option.any_some]
    exact decide_eq_false (h.dots name (List.mem_of_getLast? hlast)).1

/-- `sanitizeUri` puts the base directory in front. -/
theorem names_of_sanitizeUri (h : sanitizeUri s.baseDirectory uri = .ok (some path)) :
    ∃ place, Names s uri place ∧ components path = components s.baseDirectory ++ place := by
  obtain ⟨decoded, -, -, -, -, rfl⟩ := sanitizeUri_eq_ok_some_iff.mp h
  exact ⟨_, ⟨_, h, rfl⟩, components_join _ _⟩

/-- A `GET`. -/
structure IsGet (request : Request) : Prop where
  isSuccess : request.isSuccess = true
  method : request.method = .get

theorem isGet_uri (uri : String) : IsGet { uri := uri } := ⟨rfl, rfl⟩

/-- The place of the file system for a place below the base directory. -/
def Server.at (s : Server) (place : List String) : List String :=
  components s.baseDirectory ++ place

/-- The path of a place below the base directory, as `File`s have it. -/
def Server.filePath (s : Server) (place : List String) : String :=
  getPath (s.baseDirectory ++ pathOf place)

/-- The page for a directory with these names. -/
def Server.page (s : Server) (place names : List String) : String :=
  listingPage (s.filePath place) (shown s.files (s.at place) names)

theorem getPath_join (hproper : Proper place) (hplace : components path = place) (a : String) :
    getPath (a ++ "/" ++ path) = getPath (a ++ pathOf place) := by
  have hcomponents : components (a ++ "/" ++ path) = components (a ++ pathOf place) := by
    rw [pathOf, ← String.append_assoc, components_join, components_join,
      components_intercalate hproper, hplace]
  have hhead : (a ++ "/" ++ path).toList.head? = (a ++ pathOf place).toList.head? := by
    simp [pathOf, List.head?_append]
  rw [getPath, getPath, hcomponents, hhead]

/-- **What is answered to a `GET`.** -/
theorem Names.staticChannelRead0_eq (h : Names s uri place) {request : Request}
    (hget : IsGet request) (huri : request.uri = uri) :
    staticChannelRead0 s request =
      match s.files.entry (s.at place) with
      | none => .ok (.error .notFound)
      | some (.directory canRead names) =>
        if uri.toList.getLast? = some '/' then
          if canRead then .ok (.listing (s.page place names)) else .error .listFiles
        else .ok (.redirect (uri ++ "/"))
      | some (.other _) => .ok (.error .forbidden)
      | some (.file canRead content lastModified) =>
        sendFile s request (s.filePath place) canRead content lastModified := by
  subst huri
  have hhidden := h.nameable.isHidden_eq_false s
  obtain ⟨path, hpath, rfl⟩ := h
  rw [staticChannelRead0, hget.isSuccess, hget.method, hpath]
  simp only [components_join, hhidden, sendListing, Server.page, Server.filePath, Server.at,
    getPath_join (fun name hname => of_mem_components hname) (rfl : components path = _)]
  rfl

/-- A request that is answered with a file, a page or a redirection names its place. -/
theorem names_of_answer {request : Request} {response : Response}
    (h : staticChannelRead0 s request = .ok response)
    (hresponse : response ≠ .post ∧ ∀ status, response ≠ .error status) :
    IsGet request ∧ ∃ place, Names s request.uri place := by
  rw [staticChannelRead0] at h
  split at h
  next =>
    obtain rfl := Except.ok.inj h
    exact absurd rfl (hresponse.2 _)
  next hsuccess =>
    split at h
    next =>
      obtain rfl := Except.ok.inj h
      exact absurd rfl hresponse.1
    next =>
      obtain rfl := Except.ok.inj h
      exact absurd rfl (hresponse.2 _)
    next hmethod =>
      split at h
      next => cases h
      next =>
        obtain rfl := Except.ok.inj h
        exact absurd rfl (hresponse.2 _)
      next path hpath =>
        obtain ⟨place, hnames, -⟩ := names_of_sanitizeUri hpath
        exact ⟨⟨by simpa using hsuccess, hmethod⟩, place, hnames⟩

/-! ### What can be got -/

theorem sendFile_eq_file_iff {request : Request} {headers : FileHeaders} {content' : List UInt8} :
    sendFile s request path canRead content lastModified = .ok (.file headers content') ↔
      isNotModified s.dates request.ifModifiedSince lastModified = .ok false ∧ canRead = true ∧
        headers = fileHeaders s request path content lastModified ∧ content' = content := by
  rw [sendFile]
  cases isNotModified s.dates request.ifModifiedSince lastModified with
  | error e => simp [bind, Except.bind]
  | ok b =>
    cases b with
    | true => simp [bind, Except.bind, pure, Except.pure]
    | false =>
      cases canRead with
      | true => simp [bind, Except.bind, pure, Except.pure, eq_comm]
      | false => simp [bind, Except.bind, pure, Except.pure]

theorem sendFile_ne_listing {request : Request} {response : Response}
    (h : sendFile s request path canRead content lastModified = .ok response) (page : String) :
    response ≠ .listing page := by
  rintro rfl
  rw [sendFile] at h
  cases hmodified : isNotModified s.dates request.ifModifiedSince lastModified with
  | error e => rw [hmodified] at h; cases h
  | ok b => rw [hmodified] at h; cases b <;> cases canRead <;> cases h

/-- A page is that of a readable directory, and the URI has a slash at its end. -/
theorem Names.of_listing (h : Names s uri place) {request : Request} (hget : IsGet request)
    (huri : request.uri = uri) {page : String}
    (hpage : staticChannelRead0 s request = .ok (.listing page)) :
    ∃ names, s.files.entry (s.at place) = some (.directory true names) ∧
      page = s.page place names ∧ uri.toList.getLast? = some '/' := by
  rw [h.staticChannelRead0_eq hget huri] at hpage
  split at hpage
  next => cases hpage
  next canRead names hentry =>
    split at hpage
    next hslash =>
      split at hpage
      next hread =>
        subst hread
        exact ⟨names, hentry, (Response.listing.inj (Except.ok.inj hpage)).1.symm, hslash⟩
      next => cases hpage
    next => cases hpage
  next => cases hpage
  next => exact absurd rfl (sendFile_ne_listing hpage page)

theorem Names.of_file (h : Names s uri place) {request : Request} (hget : IsGet request)
    (huri : request.uri = uri) {headers : FileHeaders}
    (hfile : staticChannelRead0 s request = .ok (.file headers content)) :
    ∃ lastModified, s.files.entry (s.at place) = some (.file true content lastModified) ∧
      headers = fileHeaders s request (s.filePath place) content lastModified := by
  rw [h.staticChannelRead0_eq hget huri] at hfile
  split at hfile
  next => cases hfile
  next =>
    split at hfile
    next => split at hfile <;> cases hfile
    next => cases hfile
  next => cases hfile
  next canRead content' lastModified hentry =>
    obtain ⟨-, rfl, hheaders, rfl⟩ := sendFile_eq_file_iff.mp hfile
    exact ⟨lastModified, hentry, hheaders⟩

/-- What the server answers to a plain request for a URI. -/
def answer (s : Server) (uri : String) : Except Failure Response :=
  staticChannelRead0 s { uri := uri }

theorem Names.file_of_entry (h : Names s uri place)
    (hentry : s.files.entry (s.at place) = some (.file true content lastModified)) :
    answer s uri = .ok (.file
      (fileHeaders s { uri := uri } (s.filePath place) content lastModified) content) := by
  rw [answer, h.staticChannelRead0_eq (isGet_uri uri) rfl, hentry]
  exact sendFile_eq_file_iff.mpr ⟨rfl, rfl, rfl, rfl⟩

theorem Names.listing_of_entry (h : Names s uri place)
    (hentry : s.files.entry (s.at place) = some (.directory true names))
    (hslash : uri.toList.getLast? = some '/') :
    answer s uri = .ok (.listing (s.page place names)) := by
  rw [answer, h.staticChannelRead0_eq (isGet_uri uri) rfl, hentry]
  simp only [hslash, if_true]

/-- **What can be got.** The contents that the server sends are those of the readable files, and
the pages those of the readable directories, on whose way no name begins or ends with a dot or has
an insecure character without a line terminator. -/
theorem served_iff (s : Server) :
    (∀ content, (∃ request headers, staticChannelRead0 s request = .ok (.file headers content)) ↔
      ∃ place lastModified, Nameable place ∧
        s.files.entry (s.at place) = some (.file true content lastModified)) ∧
    ∀ page, (∃ request, staticChannelRead0 s request = .ok (.listing page)) ↔
      ∃ place names, Nameable place ∧
        s.files.entry (s.at place) = some (.directory true names) ∧ page = s.page place names := by
  refine ⟨fun content => ⟨?_, ?_⟩, fun page => ⟨?_, ?_⟩⟩
  · rintro ⟨request, headers, h⟩
    obtain ⟨hget, place, hnames⟩ := names_of_answer h (by simp)
    obtain ⟨lastModified, hentry, -⟩ := hnames.of_file hget rfl h
    exact ⟨place, lastModified, hnames.nameable, hentry⟩
  · rintro ⟨place, lastModified, hnameable, hentry⟩
    obtain ⟨uri, hnames, -⟩ := exists_names s (s.files.proper _ (by rw [← Server.at, hentry]; rfl))
      hnameable
    exact ⟨{ uri := uri }, _, hnames.file_of_entry hentry⟩
  · rintro ⟨request, h⟩
    obtain ⟨hget, place, hnames⟩ := names_of_answer h (by simp)
    obtain ⟨names, hentry, hpage, -⟩ := hnames.of_listing hget rfl h
    exact ⟨place, names, hnames.nameable, hentry, hpage⟩
  · rintro ⟨place, names, hnameable, hentry, rfl⟩
    obtain ⟨uri, hnames, hslash⟩ := exists_names s
      (s.files.proper _ (by rw [← Server.at, hentry]; rfl)) hnameable
    exact ⟨{ uri := uri }, hnames.listing_of_entry hentry hslash⟩

/-! ### What is not answered -/

/-- A URI names one place. -/
theorem Names.unique {place' : List String} (h : Names s uri place) (h' : Names s uri place') :
    place = place' := by
  obtain ⟨path, hpath, rfl⟩ := h
  obtain ⟨path', hpath', rfl⟩ := h'
  have heq := Option.some.inj (Except.ok.inj (hpath.symm.trans hpath'))
  rw [(String.append_right_inj _).mp heq]

/-- What makes an exception of the answer for an entry: a directory that cannot be listed, and a
time that cannot be read. -/
def Fails (dates : DateFormat) (request : Request) : Entry → Prop
  | .directory canRead _ => canRead = false ∧ request.uri.toList.getLast? = some '/'
  | .file _ _ _ => ∃ text ∈ request.ifModifiedSince, text ≠ "" ∧ dates.parse text = none
  | .other _ => False

theorem isNotModified_eq_error_iff {dates : DateFormat} {text? : Option String} {e : Failure} :
    isNotModified dates text? lastModified = .error e ↔
      e = .parse ∧ ∃ text ∈ text?, text ≠ "" ∧ dates.parse text = none := by
  cases text? with
  | none => simp [isNotModified]
  | some text =>
    by_cases hempty : text = ""
    · simp [isNotModified, hempty]
    · cases hparse : dates.parse text with
      | none => simp [isNotModified, hempty, hparse, eq_comm]
      | some date => simp [isNotModified, hempty, hparse]

theorem exists_sendFile_eq_error_iff {request : Request} :
    (∃ e, sendFile s request path canRead content lastModified = .error e) ↔
      ∃ text ∈ request.ifModifiedSince, text ≠ "" ∧ s.dates.parse text = none := by
  rw [sendFile]
  cases hmodified : isNotModified s.dates request.ifModifiedSince lastModified with
  | error e => exact iff_of_true ⟨e, rfl⟩ (isNotModified_eq_error_iff.mp hmodified).2
  | ok b =>
    refine iff_of_false ?_ fun htext => ?_
    · rintro ⟨e, he⟩
      cases b <;> cases canRead <;> cases he
    · have herror : isNotModified s.dates request.ifModifiedSince lastModified = .error .parse :=
        isNotModified_eq_error_iff.mpr ⟨rfl, htext⟩
      rw [hmodified] at herror
      cases herror

/-- The decoder is the only part of `sanitizeUri` that throws. -/
theorem sanitizeUri_eq_error_iff {baseDirectory : String} {e : Percent.Error} :
    sanitizeUri baseDirectory uri = .error e ↔ Percent.decode uri = .error e := by
  rw [sanitizeUri]
  cases Percent.decode uri with
  | error e' => simp [bind, Except.bind]
  | ok decoded =>
    simp only [bind, Except.bind, pure, Except.pure, reduceCtorEq, iff_false]
    split
    · intro h
      cases h
    · split <;> (intro h; cases h)

/-- When `staticChannelRead0` throws an exception. -/
theorem exists_staticChannelRead0_eq_error_iff {request : Request} :
    (∃ e, staticChannelRead0 s request = .error e) ↔ IsGet request ∧
      ((∃ e, Percent.decode request.uri = .error e) ∨ ∃ place, Names s request.uri place ∧
        ∃ entry ∈ s.files.entry (s.at place), Fails s.dates request entry) := by
  by_cases hget : IsGet request
  · rw [and_iff_right hget]
    cases hsanitize : sanitizeUri s.baseDirectory request.uri with
    | error e =>
      refine iff_of_true ⟨.decode e, ?_⟩ (.inl ⟨e, sanitizeUri_eq_error_iff.mp hsanitize⟩)
      rw [staticChannelRead0, hget.isSuccess, hget.method, hsanitize]
      rfl
    | ok result =>
      have hdecode : ¬∃ e, Percent.decode request.uri = .error e := by
        rintro ⟨e, he⟩
        rw [sanitizeUri_eq_error_iff.mpr he] at hsanitize
        cases hsanitize
      rw [or_iff_right hdecode]
      cases result with
      | none =>
        refine iff_of_false ?_ ?_
        · rintro ⟨e, he⟩
          rw [staticChannelRead0, hget.isSuccess, hget.method, hsanitize] at he
          cases he
        · rintro ⟨place, ⟨path, hpath, -⟩, -⟩
          rw [hsanitize] at hpath
          cases hpath
      | some path =>
        obtain ⟨place, hnames, -⟩ := names_of_sanitizeUri hsanitize
        have hplace : (∃ place, Names s request.uri place ∧
            ∃ entry ∈ s.files.entry (s.at place), Fails s.dates request entry) ↔
            ∃ entry ∈ s.files.entry (s.at place), Fails s.dates request entry :=
          ⟨fun ⟨_, hnames', h⟩ => hnames.unique hnames' ▸ h, fun h => ⟨place, hnames, h⟩⟩
        rw [hplace, hnames.staticChannelRead0_eq hget rfl]
        cases hentry : s.files.entry (s.at place) with
        | none => simp
        | some entry =>
          cases entry with
          | directory canRead names =>
            by_cases hslash : request.uri.toList.getLast? = some '/'
            · cases canRead <;> simp [Fails, hslash]
            · simp [Fails, hslash]
          | other canRead => simp [Fails]
          | file canRead content lastModified =>
            simpa [Fails] using exists_sendFile_eq_error_iff
  · refine iff_of_false ?_ fun h => hget h.1
    rintro ⟨e, he⟩
    rw [staticChannelRead0] at he
    split at he
    next => cases he
    next hsuccess =>
      split at he
      next => cases he
      next => cases he
      next hmethod => exact hget ⟨by simpa using hsuccess, hmethod⟩

/-- The interim response is none of `staticChannelRead0`. -/
theorem staticChannelRead0_ne_goOn {request : Request} :
    staticChannelRead0 s request ≠ .ok .goOn := by
  intro h
  obtain ⟨hget, place, hnames⟩ := names_of_answer h (by simp)
  rw [hnames.staticChannelRead0_eq hget rfl] at h
  split at h
  next => cases h
  next => split at h <;> [split at h <;> cases h; cases h]
  next => cases h
  next canRead content lastModified _ =>
    rw [sendFile] at h
    cases hmodified : isNotModified s.dates request.ifModifiedSince lastModified with
    | error e => rw [hmodified] at h; cases h
    | ok b => rw [hmodified] at h; cases b <;> cases canRead <;> cases h

/-- **What is not answered.** A request gets no response, other than that it may go on, exactly if
it is a `GET` with a URI that cannot be decoded, for a directory that cannot be listed, or for a
file and with a time that cannot be read. -/
theorem unanswered_iff (s : Server) (request : Request) :
    (∀ response ∈ channelRead s request, response = .goOn) ↔ IsGet request ∧
      ((∃ e, Percent.decode request.uri = .error e) ∨ ∃ place, Names s request.uri place ∧
        ∃ entry ∈ s.files.entry (s.at place), Fails s.dates request entry) := by
  rw [← exists_staticChannelRead0_eq_error_iff, channelRead, List.forall_mem_append]
  have hinterim : ∀ response ∈ if request.is100ContinueExpected then [Response.goOn] else [],
      response = .goOn := by
    split <;> simp
  rw [and_iff_right hinterim]
  cases hanswer : staticChannelRead0 s request with
  | error e => simp
  | ok response =>
    have hne : response ≠ .goOn := by
      rintro rfl
      exact staticChannelRead0_ne_goOn hanswer
    simpa using hne

end HttpHandler

end Gwems
