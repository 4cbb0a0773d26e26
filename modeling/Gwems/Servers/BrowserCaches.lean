import Gwems.Servers.Browsing

/-!
# Files that browsers keep

`setDateAndCacheHeaders` lets a browser show a file for `HTTP_CACHE_SECONDS` without asking again,
and gives it the time of the last change to ask with afterwards. That text has no milliseconds, and
neither has the comparison with it: to a request with the second of the last change the server
answers `NOT_MODIFIED`, and the browser shows what it has.

`Browsers` is the server with any number of browsers that do so, and with someone who changes files.
The handler takes no lock: it compares the time, opens the file, and reads the time again for the
header, and files are changed in between. If a file is changed after it was opened, its old content
goes out with the new time, and is then not modified for ever. As long as this does not happen, and
no file is changed twice in a second, whatever a browser shows has been the content of the file
since it asked or within the last `HTTP_CACHE_SECONDS` (`shown_was_current`).
-/

namespace Gwems

namespace HttpHandler

/-! ### Browsers and the server -/

/-- A file that a browser keeps: its content, the text of the last change, and when the browser
asked for what it was answered. -/
structure Copy where
  content : List UInt8
  lastModified : String
  checked : ℤ

/-- How far the server is with a request. -/
inductive Stage
  | asked
  /-- The browser has another version of the file, or none. -/
  | validated
  /-- The file is open. -/
  | opened (headers : FileHeaders) (content : List UInt8)
  | sent (response : Response)
  /-- There was an exception. -/
  | unanswered

/-- A request that a browser waits for, with what it keeps. -/
structure View where
  browser : ℕ
  uri : String
  asked : ℤ
  kept : Option Copy
  stage : Stage := .asked

/-- The server, what each browser keeps for each URI, and the requests. -/
structure Browsers where
  server : Server
  copies : ℕ → String → Option Copy := fun _ _ => none
  views : List View := []

/-- The place that a URI is for. -/
def Server.placeOf (s : Server) (uri : String) : Option (List String) :=
  match sanitizeUri s.baseDirectory uri with
  | .ok path => path.map components
  | .error _ => none

theorem Names.placeOf_eq {s : Server} {uri : String} {place : List String} (h : Names s uri place) :
    s.placeOf uri = some (s.at place) := by
  obtain ⟨path, hpath, rfl⟩ := h
  rw [Server.placeOf, hpath]
  exact congrArg some (components_join _ _)

/-- `file.lastModified()`: 0 if there is no file. -/
def Server.lastModified (s : Server) (uri : String) : ℤ :=
  (((s.placeOf uri).bind s.files.entry).bind Entry.lastModified).getD 0

/-- `setDateAndCacheHeaders(response, file)`, some time after the file was opened. -/
def setDateAndCacheHeaders (s : Server) (uri : String) (headers : FileHeaders) : FileHeaders :=
  { headers with
    date := s.dates.format s.now
    expires := s.dates.format (s.now + HTTP_CACHE_SECONDS * 1000)
    cacheControl := "private, max-age=" ++ toString HTTP_CACHE_SECONDS
    lastModified := s.dates.format (s.lastModified uri) }

namespace View

/-- The request of a browser: about what it keeps, if it keeps anything. -/
def request (view : View) : Request :=
  { uri := view.uri, ifModifiedSince := view.kept.map Copy.lastModified }

/-- `staticChannelRead0` goes on: it validates what the browser has, opens the file, and then writes
the headers. -/
def next (s : Server) (view : View) : Option Stage :=
  match view.stage with
  | .asked => match staticChannelRead0 s view.request with
    | .ok (.file _ _) => some .validated
    | .ok response => some (.sent response)
    | .error _ => some .unanswered
  | .validated => match answer s view.uri with
    | .ok (.file headers content) => some (.opened headers content)
    | .ok response => some (.sent response)
    | .error _ => some .unanswered
  | .opened headers content =>
    some (.sent (.file (setDateAndCacheHeaders s view.uri headers) content))
  | .sent _ | .unanswered => none

/-- What the browser gets. -/
def response (view : View) : Option Response :=
  match view.stage with
  | .sent response => some response
  | .asked | .validated | .opened _ _ | .unanswered => none

/-- What the browser keeps of a response. -/
def received (view : View) : Response → Option Copy
  | .file headers content =>
    some { content := content, lastModified := headers.lastModified, checked := view.asked }
  | .notModified _ => view.kept.map fun copy => { copy with checked := view.asked }
  | .goOn | .error _ _ _ | .post | .listing _ _ | .redirect _ => none

theorem stage_of_response {view : View} {response : Response} (h : view.response = some response) :
    view.stage = .sent response := by
  rw [View.response] at h
  split at h
  next hstage => rw [hstage, Option.some.inj h]
  all_goals cases h

/-- The file is read: it has been opened, and the browser does not have all of it. -/
def reads (view : View) : Bool :=
  match view.stage with
  | .opened _ _ | .sent (.file _ _) => true
  | .asked | .validated | .sent _ | .unanswered => false

end View

/-! ### What has not been modified -/

theorem sendFile_eq_notModified {s : Server} {request : Request} {path : String} {canRead : Bool}
    {content : List UInt8} {lastModified : ℤ} {date : String}
    (h : sendFile s request path canRead content lastModified = .ok (.notModified date)) :
    isNotModified s.dates request.ifModifiedSince lastModified = .ok true := by
  rw [sendFile] at h
  cases hmodified : isNotModified s.dates request.ifModifiedSince lastModified with
  | error e => rw [hmodified] at h; cases h
  | ok b =>
    rw [hmodified] at h
    cases b with
    | true => rfl
    | false => cases canRead <;> cases h

/-- What has not been modified is a file. -/
theorem Names.of_notModified {s : Server} {uri : String} {place : List String}
    (h : Names s uri place) {request : Request} (hget : IsGet request) (huri : request.uri = uri)
    {date : String} (hanswer : staticChannelRead0 s request = .ok (.notModified date)) :
    ∃ canRead content lastModified,
      s.files.entry (s.at place) = some (.file canRead content lastModified) ∧
      isNotModified s.dates request.ifModifiedSince lastModified = .ok true := by
  rw [h.staticChannelRead0_eq hget huri] at hanswer
  split at hanswer
  next => cases hanswer
  next =>
    split at hanswer
    next => split at hanswer <;> cases hanswer
    next => cases hanswer
  next => cases hanswer
  next canRead content lastModified hentry =>
    exact ⟨canRead, content, lastModified, hentry, sendFile_eq_notModified hanswer⟩

/-- The text that was sent is compared up to the second. -/
theorem tdiv_eq_of_isNotModified {dates : DateFormat} {text : String} {lastModified time : ℤ}
    (htime : 0 ≤ time) (htext : text = dates.format time)
    (h : isNotModified dates (some text) lastModified = .ok true) :
    time.tdiv 1000 = lastModified.tdiv 1000 := by
  obtain ⟨date, hparse, hsecond⟩ := dates.parse_format htime
  have hne : text ≠ "" := htext ▸ dates.format_ne time
  rw [isNotModified, if_neg hne, htext, hparse] at h
  rw [← hsecond]
  exact of_decide_eq_true (Except.ok.inj h)

namespace Browsers

/-- What a browser keeps and may show without asking. -/
def fresh (w : Browsers) (i : ℕ) (uri : String) : Option Copy :=
  (w.copies i uri).filter fun copy => w.server.now ≤ copy.checked + HTTP_CACHE_SECONDS * 1000

/-- What can happen next. -/
inductive Action
  | tick (ms : ℕ)
  | write (place : List String) (content : List UInt8)
  /-- A URI is to be shown. -/
  | view (i : ℕ) (uri : String)
  /-- The server goes on with a request. -/
  | serve (n : ℕ)
  /-- A browser gets a response. -/
  | receive (n : ℕ)

/-- Time, changes of files, the server and browsers in any order. -/
def machine : Machine Browsers Action where
  step w
    | .tick ms => some { w with server := { w.server with now := w.server.now + ms } }
    | .write place content =>
      some { w with server :=
        { w.server with files := w.server.files.write place content w.server.now } }
    | .view i uri =>
      if (w.fresh i uri).isSome then some w
      else some { w with views := w.views ++
        [{ browser := i, uri := uri, asked := w.server.now, kept := w.copies i uri }] }
    | .serve n => do
      let view ← w.views[n]?
      let stage ← view.next w.server
      return { w with views := w.views.set n { view with stage := stage } }
    | .receive n => do
      let view ← w.views[n]?
      let response ← view.response
      return { w with
        copies := fun j => if j = view.browser then
          Function.update (w.copies j) view.uri (view.received response) else w.copies j
        views := w.views.eraseIdx n }

/-- A content that is shown for a URI, and the time since which it should have been that of the
file at some moment. -/
structure Shown where
  uri : String
  content : List UInt8
  since : ℤ

/-- What is shown: a fresh copy at once, and otherwise what the response says. -/
def shown (w : Browsers) : Action → Option Shown
  | .view i uri => do
    let copy ← w.fresh i uri
    return ⟨uri, copy.content, w.server.now - HTTP_CACHE_SECONDS * 1000⟩
  | .receive n => do
    let view ← w.views[n]?
    let response ← view.response
    let copy ← view.received response
    return ⟨view.uri, copy.content, view.asked⟩
  | .tick _ | .write _ _ | .serve _ => none

/-- A file is not changed in the second of its last change, nor while it is read. -/
def Apart (w : Browsers) : Action → Prop
  | .write place _ =>
    (∀ time ∈ (w.server.files.entry place).bind Entry.lastModified,
      time.tdiv 1000 < w.server.now.tdiv 1000) ∧
    ∀ view ∈ w.views, view.reads = true → w.server.placeOf view.uri ≠ some place
  | .tick _ | .view _ _ | .serve _ | .receive _ => True

instance (w : Browsers) (a : Action) : Decidable (w.Apart a) :=
  match a with
  | .write _ _ => inferInstanceAs (Decidable (_ ∧ _))
  | .tick _ | .view _ _ | .serve _ | .receive _ => isTrue trivial

variable {w v : Browsers} {i : ℕ} {uri : String} {place : List String} {copy : Copy}
  {server : Server} {view : View} {response : Response} {a : Action}

/-! ### What runs keep -/

/-- **What a step does to the server.** -/
theorem server_step (hst : machine.step w a = some v) :
    (∃ ms : ℕ, v.server = { w.server with now := w.server.now + ms }) ∨
      (∃ place content, a = .write place content ∧ v.server =
        { w.server with files := w.server.files.write place content w.server.now }) ∨
      v.server = w.server := by
  cases a with
  | tick ms => cases hst; exact .inl ⟨ms, rfl⟩
  | write place content => cases hst; exact .inr (.inl ⟨place, content, rfl, rfl⟩)
  | view i uri =>
    simp only [machine] at hst
    split at hst <;> (cases hst; exact .inr (.inr rfl))
  | serve n =>
    obtain ⟨view, -, hst⟩ := Option.bind_eq_some_iff.mp hst
    obtain ⟨stage, -, hst⟩ := Option.bind_eq_some_iff.mp hst
    cases hst
    exact .inr (.inr rfl)
  | receive n =>
    obtain ⟨view, -, hst⟩ := Option.bind_eq_some_iff.mp hst
    obtain ⟨response, -, hst⟩ := Option.bind_eq_some_iff.mp hst
    cases hst
    exact .inr (.inr rfl)

/-- Base directory and date format stay, and time goes on. -/
structure Later (s s' : Server) : Prop where
  baseDirectory : s'.baseDirectory = s.baseDirectory
  dates : s'.dates = s.dates
  now : s.now ≤ s'.now

theorem later_step (hst : machine.step w a = some v) : Later w.server v.server := by
  rcases server_step hst with ⟨ms, h⟩ | ⟨place, content, -, h⟩ | h
  · rw [h]
    exact ⟨rfl, rfl, Int.le_add_of_nonneg_right (Int.natCast_nonneg ms)⟩
  · rw [h]
    exact ⟨rfl, rfl, le_rfl⟩
  · rw [h]
    exact ⟨rfl, rfl, le_rfl⟩

theorem later_run (h : machine.Runs Apart v w) : Later v.server w.server :=
  h.invariant (I := fun w => Later v.server w.server)
    (fun _ ht hst =>
      have hu := later_step hst
      ⟨hu.baseDirectory.trans ht.baseDirectory, hu.dates.trans ht.dates, ht.now.trans hu.now⟩)
    ⟨rfl, rfl, le_rfl⟩

theorem Later.names_iff {s s' : Server} (h : Later s s') :
    Names s' uri place ↔ Names s uri place := by
  rw [Names, Names, h.baseDirectory]

theorem Later.at_eq {s s' : Server} (h : Later s s') (place : List String) :
    s'.at place = s.at place := by
  rw [Server.at, Server.at, h.baseDirectory]

/-- A file is what it was, or was changed in a later second. -/
theorem file_run (h : machine.Runs Apart v w) {canRead : Bool} {content : List UInt8}
    {lastModified : ℤ}
    (hentry : v.server.files.entry place = some (.file canRead content lastModified)) :
    ∃ content' lastModified',
      w.server.files.entry place = some (.file canRead content' lastModified') ∧
      ((content', lastModified') = (content, lastModified) ∨
        lastModified.tdiv 1000 < lastModified'.tdiv 1000) := by
  induction h with
  | refl => exact ⟨content, lastModified, hentry, .inl rfl⟩
  | @tail t u a _ ha hst ih =>
    obtain ⟨content', lastModified', hentry', hchange⟩ := ih
    rcases server_step hst with ⟨ms, h⟩ | ⟨place', new, rfl, h⟩ | h
    · exact ⟨content', lastModified', by rw [h]; exact hentry', hchange⟩
    · rw [h]
      by_cases heq : place = place'
      · subst heq
        have hlater := ha.1 lastModified' (by rw [hentry']; rfl)
        refine ⟨new, t.server.now, ?_, .inr ?_⟩
        · exact (congrFun (FileSystem.write_of_file hentry' new t.server.now) place).trans
            (Function.update_self ..)
        · rcases hchange with hsame | hlt
          · rw [← (Prod.mk.inj hsame).2]
            exact hlater
          · exact hlt.trans hlater
      · exact ⟨content', lastModified', (FileSystem.write_of_ne heq _ _).trans hentry', hchange⟩
    · exact ⟨content', lastModified', by rw [h]; exact hentry', hchange⟩

/-- Files have been changed since 1970. -/
structure SinceEpoch (w : Browsers) : Prop where
  now : 0 ≤ w.server.now
  files : ∀ {place canRead content lastModified},
    w.server.files.entry place = some (.file canRead content lastModified) → 0 ≤ lastModified

theorem SinceEpoch.step (h : w.SinceEpoch) (hst : machine.step w a = some v) : v.SinceEpoch := by
  refine ⟨h.now.trans (later_step hst).now, fun hentry => ?_⟩
  rcases server_step hst with ⟨ms, hserver⟩ | ⟨place, new, -, hserver⟩ | hserver
  · rw [hserver] at hentry
    exact h.files hentry
  · rw [hserver] at hentry
    rcases FileSystem.of_write hentry with hold | rfl
    · exact h.files hold
    · exact h.now
  · rw [hserver] at hentry
    exact h.files hentry

/-! ### What has been current -/

/-- What a browser keeps is the file as it is. -/
def Current (w : Browsers) (uri : String) (copy : Copy) : Prop :=
  ∃ place lastModified, Names w.server uri place ∧
    w.server.files.entry (w.server.at place) = some (.file true copy.content lastModified) ∧
    copy.lastModified = w.server.dates.format lastModified

/-- What a browser keeps has been the file since the browser asked. -/
def Confirmed (server : Server) (w : Browsers) (uri : String) (copy : Copy) : Prop :=
  ∃ v, machine.Runs Apart { server := server } v ∧ machine.Runs Apart v w ∧
    copy.checked ≤ v.server.now ∧ v.Current uri copy

theorem Confirmed.step (h : Confirmed server w uri copy) (ha : w.Apart a)
    (hst : machine.step w a = some v) : Confirmed server v uri copy := by
  obtain ⟨u, hu, hw, hnow, hcurrent⟩ := h
  exact ⟨u, hu, hw.tail ha hst, hnow, hcurrent⟩

/-- **What has not been modified is current.** -/
theorem Confirmed.current (h : Confirmed server w view.uri copy)
    (hepoch : ({ server := server } : Browsers).SinceEpoch) (hkept : view.kept = some copy)
    {date : String} (hanswer : staticChannelRead0 w.server view.request = .ok (.notModified date))
    (checked : ℤ) : w.Current view.uri { copy with checked := checked } := by
  obtain ⟨v, hv, hw, -, place, time, hnames, hentry, hformat⟩ := h
  have hlater := later_run hw
  have htime : 0 ≤ time :=
    (hv.invariant (I := SinceEpoch) (fun _ hs hst => hs.step hst) hepoch).files hentry
  have hnames' : Names w.server view.uri place := hlater.names_iff.mpr hnames
  obtain ⟨canRead, content, lastModified, hentry', hmodified⟩ :=
    hnames'.of_notModified ⟨rfl, rfl⟩ rfl hanswer
  rw [View.request, hkept] at hmodified
  have hsecond := tdiv_eq_of_isNotModified htime (hlater.dates ▸ hformat) hmodified
  -- the file has not been changed in a later second, so it has not been changed
  obtain ⟨content', lastModified', hentry'', hchange⟩ := file_run hw hentry
  rw [hlater.at_eq, hentry''] at hentry'
  obtain ⟨rfl, rfl, rfl⟩ := Entry.file.inj (Option.some.inj hentry')
  rcases hchange with hsame | hlt
  · obtain ⟨rfl, rfl⟩ := Prod.mk.inj hsame
    exact ⟨place, lastModified', hnames', hlater.at_eq place ▸ hentry'', hlater.dates ▸ hformat⟩
  · exact absurd hsecond hlt.ne

/-- The file that a URI names has this content. -/
def Serves (s : Server) (uri : String) (content : List UInt8) : Prop :=
  ∃ place lastModified, Names s uri place ∧
    s.files.entry (s.at place) = some (.file true content lastModified)

/-- The last change of a file that a URI names. -/
theorem lastModified_eq {s : Server} (h : Names s uri place) {canRead : Bool} {content : List UInt8}
    {lastModified : ℤ}
    (hentry : s.files.entry (s.at place) = some (.file canRead content lastModified)) :
    s.lastModified uri = lastModified := by
  rw [Server.lastModified, h.placeOf_eq, Option.bind_some, hentry]
  rfl

/-- What a request has come to: what the browser keeps has been the file, an open file is as it was
when it was opened, and what is received will have been the file. -/
structure Sound (server : Server) (w : Browsers) (view : View) : Prop where
  asked : view.asked ≤ w.server.now
  kept : ∀ copy ∈ view.kept, Confirmed server w view.uri copy
  opened : ∀ headers content, view.stage = .opened headers content →
    Serves w.server view.uri content
  sent : ∀ response, view.stage = .sent response → ∀ copy ∈ view.received response,
    Confirmed server w view.uri copy

/-- What is open stays as it is when other files are changed. -/
theorem Serves.step {content : List UInt8} (h : Serves w.server uri content)
    (hst : machine.step w a = some v)
    (hwrite : ∀ place new, a = .write place new → w.server.placeOf uri ≠ some place) :
    Serves v.server uri content := by
  obtain ⟨place, lastModified, hnames, hentry⟩ := h
  have hlater := later_step hst
  refine ⟨place, lastModified, hlater.names_iff.mpr hnames, ?_⟩
  rw [hlater.at_eq]
  rcases server_step hst with ⟨ms, hserver⟩ | ⟨place', new, rfl, hserver⟩ | hserver
  · rw [hserver]
    exact hentry
  · rw [hserver]
    have hne : w.server.at place ≠ place' := fun heq =>
      hwrite place' new rfl (by rw [hnames.placeOf_eq, heq])
    exact (FileSystem.write_of_ne hne _ _).trans hentry
  · rw [hserver]
    exact hentry

theorem Sound.step (h : Sound server w view) (ha : w.Apart a) (hst : machine.step w a = some v)
    (hwrite : ∀ place new, a = .write place new → view.reads = true →
      w.server.placeOf view.uri ≠ some place) : Sound server v view where
  asked := h.asked.trans (later_step hst).now
  kept copy hcopy := (h.kept copy hcopy).step ha hst
  opened headers content hstage := (h.opened headers content hstage).step hst fun place new heq =>
    hwrite place new heq (by rw [View.reads, hstage])
  sent response hstage copy hcopy := (h.sent response hstage copy hcopy).step ha hst

/-- What a browser keeps of anything but a file it had. -/
theorem of_mem_received (hfile : ∀ headers content, response ≠ .file headers content)
    (h : copy ∈ view.received response) : ∃ date copy', response = .notModified date ∧
      view.kept = some copy' ∧ copy = { copy' with checked := view.asked } := by
  cases response with
  | notModified date =>
    obtain ⟨copy', hkept, rfl⟩ := Option.map_eq_some_iff.mp h
    exact ⟨date, copy', rfl, hkept, rfl⟩
  | file headers content => exact absurd rfl (hfile headers content)
  | goOn => cases h
  | error status content contentType => cases h
  | post => cases h
  | listing page contentType => cases h
  | redirect location => cases h

/-- A plain request is not about what the browser has. -/
theorem answer_ne_notModified (s : Server) (uri date : String) :
    answer s uri ≠ .ok (.notModified date) := by
  intro h
  obtain ⟨hget, place, hnames⟩ := names_of_answer h (by simp)
  obtain ⟨canRead, content, lastModified, -, hmodified⟩ := hnames.of_notModified hget rfl h
  cases hmodified

/-- **What the server does with a request is sound.** -/
theorem Sound.next (h : Sound server w view) (hrun : machine.Runs Apart { server := server } w)
    (hepoch : ({ server := server } : Browsers).SinceEpoch) {stage : Stage}
    (hnext : view.next w.server = some stage) : Sound server w { view with stage := stage } := by
  rw [View.next] at hnext
  split at hnext
  next hstage =>
    split at hnext
    next =>
      cases hnext
      exact ⟨h.asked, h.kept, nofun, nofun⟩
    next response hfile hanswer =>
      cases hnext
      refine ⟨h.asked, h.kept, nofun, ?_⟩
      rintro _ ⟨⟩ copy hcopy
      obtain ⟨date, copy', rfl, hkept, rfl⟩ := of_mem_received hfile hcopy
      exact ⟨w, hrun, .refl, h.asked, (h.kept copy' hkept).current hepoch hkept hanswer _⟩
    next =>
      cases hnext
      exact ⟨h.asked, h.kept, nofun, nofun⟩
  next hstage =>
    split at hnext
    next headers content hanswer =>
      cases hnext
      obtain ⟨hget, place, hnames⟩ := names_of_answer hanswer (by simp)
      obtain ⟨lastModified, hentry, -⟩ := hnames.of_file hget rfl hanswer
      refine ⟨h.asked, h.kept, ?_, nofun⟩
      rintro _ _ ⟨⟩
      exact ⟨place, lastModified, hnames, hentry⟩
    next response hfile hanswer =>
      cases hnext
      refine ⟨h.asked, h.kept, nofun, ?_⟩
      rintro _ ⟨⟩ copy hcopy
      obtain ⟨date, -, rfl, -⟩ := of_mem_received hfile hcopy
      exact absurd hanswer (answer_ne_notModified _ _ _)
    next =>
      cases hnext
      exact ⟨h.asked, h.kept, nofun, nofun⟩
  next headers content hstage =>
    cases hnext
    refine ⟨h.asked, h.kept, nofun, ?_⟩
    rintro _ ⟨⟩ copy ⟨⟩
    obtain ⟨place, lastModified, hnames, hentry⟩ := h.opened headers content hstage
    refine ⟨w, hrun, .refl, h.asked, place, lastModified, hnames, hentry, ?_⟩
    rw [← lastModified_eq hnames hentry]
    rfl
  next => cases hnext
  next => cases hnext

/-! ### What is shown -/

/-- What runs keep of copies and requests. -/
structure AllSound (server : Server) (w : Browsers) : Prop where
  run : machine.Runs Apart { server := server } w
  copies : ∀ i uri copy, w.copies i uri = some copy → Confirmed server w uri copy
  views : ∀ view ∈ w.views, Sound server w view

/-- What copies and requests were, they stay. -/
theorem AllSound.carry (h : AllSound server w) (ha : w.Apart a) (hst : machine.step w a = some v) :
    (∀ i uri copy, w.copies i uri = some copy → Confirmed server v uri copy) ∧
      ∀ view ∈ w.views, Sound server v view := by
  refine ⟨fun i uri copy hcopy => (h.copies i uri copy hcopy).step ha hst, fun view hview => ?_⟩
  refine (h.views view hview).step ha hst fun place new heq hreads => ?_
  subst heq
  exact ha.2 view hview hreads

/-- A browser shows what it keeps, or asks. -/
theorem AllSound.step_view (h : AllSound server w) (hst : machine.step w (.view i uri) = some v) :
    AllSound server v := by
  have ha : w.Apart (.view i uri) := trivial
  have hrun := h.run.tail ha hst
  obtain ⟨hcopies, hviews⟩ := h.carry ha hst
  simp only [machine] at hst
  split at hst
  next => cases hst; exact ⟨hrun, hcopies, hviews⟩
  next =>
    cases hst
    refine ⟨hrun, hcopies, fun view hview => ?_⟩
    rcases List.mem_append.mp hview with hview | hview
    · exact hviews view hview
    · obtain rfl := List.mem_singleton.mp hview
      exact ⟨le_rfl, hcopies i uri, nofun, nofun⟩

/-- The server goes on with a request. -/
theorem AllSound.step_serve (h : AllSound server w)
    (hepoch : ({ server := server } : Browsers).SinceEpoch) {n : ℕ}
    (hst : machine.step w (.serve n) = some v) : AllSound server v := by
  have ha : w.Apart (.serve n) := trivial
  have hrun := h.run.tail ha hst
  obtain ⟨hcopies, hviews⟩ := h.carry ha hst
  obtain ⟨view, hview, hst'⟩ := Option.bind_eq_some_iff.mp hst
  obtain ⟨stage, hnext, hst'⟩ := Option.bind_eq_some_iff.mp hst'
  have hsound := (h.views view (List.mem_of_getElem? hview)).next h.run hepoch hnext
  cases hst'
  refine ⟨hrun, hcopies, fun view' hview' => ?_⟩
  rcases List.mem_or_eq_of_mem_set hview' with hmem | rfl
  · exact hviews view' hmem
  · exact hsound.step ha hst nofun

/-- A browser keeps what it gets. -/
theorem AllSound.step_receive (h : AllSound server w) {n : ℕ}
    (hst : machine.step w (.receive n) = some v) : AllSound server v := by
  have ha : w.Apart (.receive n) := trivial
  have hrun := h.run.tail ha hst
  obtain ⟨hcopies, hviews⟩ := h.carry ha hst
  obtain ⟨view, hview, hst'⟩ := Option.bind_eq_some_iff.mp hst
  obtain ⟨response, hresponse, hst'⟩ := Option.bind_eq_some_iff.mp hst'
  have hstage := View.stage_of_response hresponse
  have hsound := hviews view (List.mem_of_getElem? hview)
  cases hst'
  refine ⟨hrun, fun j uri copy hcopy => ?_, fun view' hview' =>
    hviews view' (List.mem_of_mem_eraseIdx hview')⟩
  dsimp only at hcopy
  split at hcopy
  next heq =>
    by_cases huri : uri = view.uri
    · subst huri
      rw [Function.update_self] at hcopy
      exact hsound.sent response hstage copy hcopy
    · rw [Function.update_of_ne huri] at hcopy
      exact hcopies j uri copy hcopy
  next => exact hcopies j uri copy hcopy

theorem AllSound.step (h : AllSound server w)
    (hepoch : ({ server := server } : Browsers).SinceEpoch) (ha : w.Apart a)
    (hst : machine.step w a = some v) : AllSound server v := by
  cases a with
  | tick ms =>
    obtain ⟨hcopies, hviews⟩ := h.carry ha hst
    refine ⟨h.run.tail ha hst, ?_, ?_⟩
    · cases hst; exact hcopies
    · cases hst; exact hviews
  | write place content =>
    obtain ⟨hcopies, hviews⟩ := h.carry ha hst
    refine ⟨h.run.tail ha hst, ?_, ?_⟩
    · cases hst; exact hcopies
    · cases hst; exact hviews
  | view i uri => exact h.step_view hst
  | serve n => exact h.step_serve hepoch hst
  | receive n => exact h.step_receive hst

/-- What is kept of a response was asked for with the request. -/
theorem checked_of_received (h : view.received response = some copy) :
    copy.checked = view.asked := by
  by_cases hfile : ∃ headers content, response = .file headers content
  · obtain ⟨headers, content, rfl⟩ := hfile
    cases h
    rfl
  · push Not at hfile
    obtain ⟨-, copy', -, -, rfl⟩ := of_mem_received hfile h
    rfl

/-- What is shown has been confirmed. -/
theorem AllSound.shown (h : AllSound server w) {p : Shown} (hshown : w.shown a = some p) :
    ∃ copy, p.content = copy.content ∧ p.since ≤ copy.checked ∧
      Confirmed server w p.uri copy := by
  cases a with
  | tick ms => cases hshown
  | write place content => cases hshown
  | serve n => cases hshown
  | view i uri =>
    obtain ⟨copy, hfresh, hp⟩ := Option.bind_eq_some_iff.mp hshown
    obtain ⟨hcopy, hnow⟩ := Option.filter_eq_some_iff.mp hfresh
    have hnow : w.server.now ≤ copy.checked + HTTP_CACHE_SECONDS * 1000 := of_decide_eq_true hnow
    cases hp
    exact ⟨copy, rfl, Int.sub_right_le_of_le_add hnow, h.copies i uri copy hcopy⟩
  | receive n =>
    obtain ⟨view, hview, hp⟩ := Option.bind_eq_some_iff.mp hshown
    obtain ⟨response, hresponse, hp⟩ := Option.bind_eq_some_iff.mp hp
    obtain ⟨copy, hcopy, hp⟩ := Option.bind_eq_some_iff.mp hp
    cases hp
    exact ⟨copy, rfl, (checked_of_received hcopy).ge,
      (h.views view (List.mem_of_getElem? hview)).sent response
        (View.stage_of_response hresponse) copy hcopy⟩

/-- **What a browser shows is not old.** Whatever time, the server and the browsers do, and whoever
changes files, in whatever order: if no file is changed in the second of its last change, nor while
it is read, then what a browser shows for a URI was the content of the file that the URI names at
some moment since the browser asked, or within the last `HTTP_CACHE_SECONDS` if it did not ask. -/
theorem shown_was_current (hepoch : ({ server := server } : Browsers).SinceEpoch)
    (h : machine.Runs Apart { server := server } w) {p : Shown} (hshown : w.shown a = some p) :
    ∃ v place lastModified, machine.Runs Apart { server := server } v ∧ machine.Runs Apart v w ∧
      p.since ≤ v.server.now ∧ Names v.server p.uri place ∧
      v.server.files.entry (v.server.at place) = some (.file true p.content lastModified) := by
  have hall : AllSound server w :=
    h.invariant (I := AllSound server) (fun ha hs hst => hs.step hepoch ha hst)
      ⟨.refl, nofun, nofun⟩
  obtain ⟨copy, hcontent, hsince, v, hv, hw, hnow, place, lastModified, hnames, hentry, -⟩ :=
    hall.shown hshown
  exact ⟨v, place, lastModified, hv, hw, hsince.trans hnow, hnames, hcontent ▸ hentry⟩

/-- The script of the site is looked at, asked for again, and changed before the answer arrives. -/
theorem shown_was_current_script : ∃ (w : Browsers) (p : Shown),
    w.shown (.receive 0) = some p ∧ ∃ v place lastModified,
      machine.Runs Apart { server := siteServer } v ∧ machine.Runs Apart v w ∧
      p.since ≤ v.server.now ∧ Names v.server p.uri place ∧
      v.server.files.entry (v.server.at place) = some (.file true p.content lastModified) := by
  have hepoch : ({ server := siteServer } : Browsers).SinceEpoch := by
    refine ⟨by decide, fun hentry => ?_⟩
    have hmem := mem_of_lookup hentry
    simp only [List.mem_cons, Prod.mk.injEq, reduceCtorEq, Entry.file.injEq, and_false, false_or,
      List.not_mem_nil, or_false] at hmem
    omega
  obtain ⟨w, hw, hshown⟩ := Machine.Runs.exists_of_run (m := machine) (G := Apart)
    (s := { server := siteServer }) (P := fun w => (w.shown (.receive 0)).isSome)
    [.view 0 "/js/GWEMS.js", .serve 0, .serve 0, .serve 0, .receive 0, .tick 70000,
      .view 0 "/js/GWEMS.js", .serve 0, .write ["WebContent", "js", "GWEMS.js"] [47, 42],
      .tick 65000] (by decide +kernel)
  obtain ⟨p, hp⟩ := Option.isSome_iff_exists.mp hshown
  exact ⟨w, p, hp, shown_was_current hepoch hw hp⟩

end Browsers

end HttpHandler

end Gwems
