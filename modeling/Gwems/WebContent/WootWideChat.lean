import Gwems.Library.Text
import Gwems.WebContent.Gwems

/-!
# `WootWideChat.js`: the tags of a text

`wwc.extractTags` finds the words behind the `#`s of a text. It splits the text at every `#`, trims
the parts, and takes what is in front of the first space; a chat page publishes the text on the
channel of each tag.

The parts are not looked at for what they are: the first one stands behind no `#` ("the first one
doesn't count", but it does), a part that begins with white space has its word not directly behind
the `#`, and a word can have tabs and quotes in it. The tags are properties of an object, where
`__proto__` is none. `exact_iff` says for which texts none of this matters.
-/

namespace Gwems

namespace WootWideChat

/-! ### Strings -/

/-- White space and line terminators of JavaScript. -/
def IsSpace (c : Char) : Prop :=
  c ∈ ['\t', '\n', '\u000B', '\u000C', '\r', ' ', '\u00A0', '\u1680', '\u2028', '\u2029', '\u202F',
    '\u205F', '\u3000', '\uFEFF'] ∨ '\u2000' ≤ c ∧ c ≤ '\u200A'

instance : DecidablePred IsSpace := fun _ => inferInstanceAs (Decidable (_ ∨ _ ∧ _))

/-- `str.trim()`. -/
def trim (str : List Char) : List Char := (str.dropWhile (IsSpace ·)).rdropWhile (IsSpace ·)

/-- `str.replace('"', '\\"')`, which replaces the first quote only. -/
def replaceQuote : List Char → List Char
  | [] => []
  | c :: str => if c = '"' then '\\' :: '"' :: str else c :: replaceQuote str

/-! ### Tags -/

/-- `str.trim().split(' ')[0]`. -/
def firstWord (str : List Char) : List Char := (trim str).takeWhile (· ≠ ' ')

/-- `wwc.extractTags(text, delim)`, for delimiters of one character. -/
def extractTags (text : String) (delim : Option Char) : JsObject :=
  (text.toList.splitOn (delim.getD '#')).foldl
    (fun result part =>
      let str := String.ofList (replaceQuote (firstWord part))
      if 3 ≤ javaLength str then result.assign str (some str) else result)
    ∅

/-- The channels on which `handleSendText(str)` publishes, with the tags that are always there. -/
def handleSendText (theAlwaysTags str : String) : List String :=
  if javaLength str < 1 then []
  else (extractTags (str ++ " " ++ theAlwaysTags) none).keys.map ("#" ++ ·)

/-! ### Runs -/

/-- A character of a tag. -/
def IsPlain (c : Char) : Prop := ¬ IsSpace c ∧ c ≠ '#' ∧ c ≠ '"'

instance : DecidablePred IsPlain := fun _ => inferInstanceAs (Decidable (_ ∧ _ ∧ _))

/-- A run of such characters directly behind a `#`, which cannot be made longer. -/
def IsRun (text w : List Char) : Prop :=
  ∃ l₁ l₂, text = l₁ ++ '#' :: (w ++ l₂) ∧ (∀ c ∈ w, IsPlain c) ∧ ∀ c ∈ l₂.head?, ¬ IsPlain c

/-- The tags are the runs of at least three characters. -/
structure Exact (text : String) : Prop where
  sound : ∀ tag ∈ (extractTags text none).keys, IsRun text.toList tag.toList
  complete : ∀ tag : String, IsRun text.toList tag.toList → 3 ≤ javaLength tag →
    tag ∈ (extractTags text none).keys

/-- What a text must not have. -/
structure Clean (text : String) : Prop where
  /-- No word with a quote, but for a quote alone. -/
  quotes : ∀ part ∈ text.toList.splitOn '#', '"' ∈ firstWord part → firstWord part = ['"']
  /-- No word of three characters with white space. -/
  blanks : ∀ part ∈ text.toList.splitOn '#', 3 ≤ javaLength (String.ofList (firstWord part)) →
    ∀ c ∈ firstWord part, ¬ IsSpace c
  /-- No word that is not directly behind a `#`, unless it is somewhere else. -/
  strays : ∀ part ∈ text.toList.splitOn '#',
    ((text.toList.splitOn '#').head? = some part ∨ ∃ c ∈ part.head?, IsSpace c) →
    3 ≤ javaLength (String.ofList (firstWord part)) → firstWord part ≠ "__proto__".toList →
    IsRun text.toList (firstWord part)
  /-- No `#__proto__`. -/
  proto : ¬ IsRun text.toList "__proto__".toList

/-- Runs are what the parts behind the first one begin with. -/
theorem isRun_iff {text w : List Char} :
    IsRun text w ↔ ∃ part ∈ (text.splitOn '#').tail, part.takeWhile (IsPlain ·) = w := by
  -- no run goes past the next `#`
  have hpart : ∀ l : List Char, (l.takeWhile (· ≠ '#')).takeWhile (IsPlain ·) =
      l.takeWhile (IsPlain ·) := by
    intro l
    rw [List.takeWhile_takeWhile]
    congr 1
    funext c
    by_cases hc : c = '#' <;> simp [IsPlain, hc]
  simp only [Text.mem_tail_splitOn_iff]
  constructor
  · rintro ⟨l₁, l₂, rfl, hw, hl₂⟩
    refine ⟨_, ⟨l₁, w ++ l₂, rfl, rfl⟩, ?_⟩
    rw [hpart]
    rw [Text.takeWhile_append_of_head? (by simpa using hl₂), List.takeWhile_eq_self_iff]
    simpa using hw
  · rintro ⟨_, ⟨l₁, l, rfl, rfl⟩, rfl⟩
    rw [hpart]
    refine ⟨l₁, l.dropWhile (IsPlain ·), by rw [List.takeWhile_append_dropWhile], ?_, ?_⟩
    · intro c hc
      simpa using List.mem_takeWhile_imp hc
    · intro c hc
      simpa using Text.of_mem_head?_dropWhile hc

/-! ### Words -/

/-- A word begins where the white space ends, and ends at white space. -/
theorem exists_firstWord_append (part : List Char) :
    ∃ rest, part.dropWhile (IsSpace ·) = firstWord part ++ rest ∧ ∀ c ∈ rest.head?, IsSpace c := by
  set l := part.dropWhile (IsSpace ·) with hl
  have htrim : l = trim part ++ l.rtakeWhile (IsSpace ·) :=
    List.rdropWhile_append_rtakeWhile.symm
  refine ⟨(trim part).dropWhile (· ≠ ' ') ++ l.rtakeWhile (IsSpace ·), ?_, ?_⟩
  · rw [firstWord, ← List.append_assoc, List.takeWhile_append_dropWhile, ← htrim]
  · intro c hc
    cases hdrop : (trim part).dropWhile (· ≠ ' ') with
    | nil =>
      rw [hdrop, List.nil_append] at hc
      simpa using List.mem_rtakeWhile_imp (List.mem_of_mem_head? hc)
    | cons d rest =>
      rw [hdrop, List.cons_append, List.head?_cons, Option.mem_some_iff] at hc
      have hspace : d ∈ ((trim part).dropWhile (· ≠ ' ')).head? := by rw [hdrop]; rfl
      obtain rfl : d = ' ' := by simpa using Text.of_mem_head?_dropWhile hspace
      rw [← hc]
      decide

theorem javaLength_le_of_sublist {str str' : List Char} (h : List.Sublist str str') :
    javaLength (String.ofList str) ≤ javaLength (String.ofList str') := by
  unfold javaLength
  rw [String.toList_ofList, String.toList_ofList]
  exact (h.map _).sum_le_sum fun n _ => Nat.zero_le n

theorem replaceQuote_of_notMem {str : List Char} (h : '"' ∉ str) : replaceQuote str = str := by
  induction str with
  | nil => rfl
  | cons c str ih =>
    obtain ⟨hc, hstr⟩ := not_or.mp (List.mem_cons.not.mp h)
    rw [replaceQuote, if_neg (Ne.symm hc), ih hstr]

theorem mem_replaceQuote {str : List Char} (h : '"' ∈ str) : '"' ∈ replaceQuote str := by
  induction str with
  | nil => cases h
  | cons c str ih =>
    rw [replaceQuote]
    split
    next => simp
    next hc =>
      rcases List.mem_cons.mp h with hq | hq
      · exact absurd hq.symm hc
      · exact List.mem_cons_of_mem _ (ih hq)

/-- A quote gets longer. -/
theorem length_replaceQuote {str : List Char} (h : '"' ∈ str) :
    (replaceQuote str).length = str.length + 1 := by
  induction str with
  | nil => cases h
  | cons c str ih =>
    rw [replaceQuote]
    split
    next => rfl
    next hc =>
      rcases List.mem_cons.mp h with hq | hq
      · exact absurd hq.symm hc
      · rw [List.length_cons, ih hq, List.length_cons]

theorem mem_extractTags_iff {text tag : String} :
    tag ∈ (extractTags text none).keys ↔ tag ≠ "__proto__" ∧ 3 ≤ javaLength tag ∧
      ∃ part ∈ text.toList.splitOn '#', replaceQuote (firstWord part) = tag.toList := by
  have hcollect := GWEMS.mem_keys_collect (fun str => decide (3 ≤ javaLength str)) (k := tag)
    ((text.toList.splitOn '#').map fun part => String.ofList (replaceQuote (firstWord part))) ∅
    (by rfl)
  rw [List.foldl_map] at hcollect
  simp only [decide_eq_true_eq] at hcollect
  have hempty : tag ∉ (∅ : JsObject).keys := by simp [JsObject.mem_keys]
  have htag : tag ∈ ((text.toList.splitOn '#').map fun part =>
      String.ofList (replaceQuote (firstWord part))) ↔
      ∃ part ∈ text.toList.splitOn '#', replaceQuote (firstWord part) = tag.toList := by
    simp only [List.mem_map, ← String.toList_inj, String.toList_ofList]
  refine Iff.trans hcollect ?_
  rw [or_iff_right hempty, htag]
  constructor
  · rintro ⟨hpart, hlength, hproto⟩
    exact ⟨hproto, hlength, hpart⟩
  · rintro ⟨hproto, hlength, hpart⟩
    exact ⟨hpart, hlength, hproto⟩

/-! ### Exactness -/

/-- A tag without quotes is a word. -/
theorem mem_extractTags_of_firstWord {text : String} {part : List Char}
    (hpart : part ∈ text.toList.splitOn '#') (hquote : '"' ∉ firstWord part)
    (hlength : 3 ≤ javaLength (String.ofList (firstWord part)))
    (hproto : firstWord part ≠ "__proto__".toList) :
    String.ofList (firstWord part) ∈ (extractTags text none).keys := by
  refine mem_extractTags_iff.mpr ⟨?_, hlength, part, hpart, ?_⟩
  · intro h
    exact hproto (by rw [← h, String.toList_ofList])
  · rw [replaceQuote_of_notMem hquote, String.toList_ofList]

/-- A word with a quote would be a tag that is no run. -/
theorem Exact.quotes {text : String} (h : Exact text) {part : List Char}
    (hpart : part ∈ text.toList.splitOn '#') (hquote : '"' ∈ firstWord part) :
    firstWord part = ['"'] := by
  by_contra hne
  have hlength : 2 ≤ (firstWord part).length := by
    by_contra hlt
    have hone : (firstWord part).length = 1 := by
      have := List.length_pos_of_mem hquote
      omega
    obtain ⟨c, hc⟩ := List.length_eq_one_iff.mp hone
    rw [hc, List.mem_singleton] at hquote
    exact hne (by rw [hc, hquote])
  have hmem : String.ofList (replaceQuote (firstWord part)) ∈ (extractTags text none).keys := by
    refine mem_extractTags_iff.mpr ⟨?_, ?_, part, hpart, String.toList_ofList.symm⟩
    · intro hproto
      have hlist : replaceQuote (firstWord part) = "__proto__".toList := by
        rw [← hproto, String.toList_ofList]
      have hin := mem_replaceQuote hquote
      rw [hlist] at hin
      revert hin
      decide
    · have hle := length_le_javaLength (String.ofList (replaceQuote (firstWord part)))
      rw [String.length_ofList, length_replaceQuote hquote] at hle
      omega
  obtain ⟨l₁, l₂, -, hplain, -⟩ := h.sound _ hmem
  rw [String.toList_ofList] at hplain
  exact (hplain _ (mem_replaceQuote hquote)).2.2 rfl

/-- Other words are tags as they are. -/
theorem Exact.isRun_firstWord {text : String} (h : Exact text) {part : List Char}
    (hpart : part ∈ text.toList.splitOn '#')
    (hlength : 3 ≤ javaLength (String.ofList (firstWord part)))
    (hproto : firstWord part ≠ "__proto__".toList) : IsRun text.toList (firstWord part) := by
  have hquote : '"' ∉ firstWord part := by
    intro hin
    rw [h.quotes hpart hin] at hlength
    revert hlength
    decide
  have htag := h.sound _ (mem_extractTags_of_firstWord hpart hquote hlength hproto)
  rwa [String.toList_ofList] at htag

theorem Exact.clean {text : String} (h : Exact text) : Clean text where
  quotes _ hpart := h.quotes hpart
  blanks part hpart hlength c hc hspace := by
    have hproto : firstWord part ≠ "__proto__".toList := by
      intro heq
      rw [heq] at hc
      have hall : ∀ c ∈ "__proto__".toList, ¬ IsSpace c := by
        simp [IsSpace]
      exact hall c hc hspace
    obtain ⟨l₁, l₂, -, hplain, -⟩ := h.isRun_firstWord hpart hlength hproto
    exact (hplain c hc).1 hspace
  strays _ hpart _ := h.isRun_firstWord hpart
  proto hrun := (mem_extractTags_iff.mp (h.complete "__proto__" hrun (by decide))).1 rfl

/-- Where a word is directly behind a `#`, it is the run that is there. -/
theorem Clean.firstWord_eq {text : String} (h : Clean text) {part : List Char}
    (hpart : part ∈ text.toList.splitOn '#') (hspace : ∀ c ∈ part.head?, ¬ IsSpace c)
    (hlength : 3 ≤ javaLength (String.ofList (firstWord part)) ∨
      3 ≤ javaLength (String.ofList (part.takeWhile (IsPlain ·)))) :
    firstWord part = part.takeWhile (IsPlain ·) := by
  obtain ⟨rest, happend, hrest⟩ := exists_firstWord_append part
  have hdrop : part.dropWhile (IsSpace ·) = part := by
    cases part with
    | nil => rfl
    | cons c part => exact List.dropWhile_cons_of_neg (by simpa using hspace c rfl)
  rw [hdrop] at happend
  have hrun : part.takeWhile (IsPlain ·) = (firstWord part).takeWhile (IsPlain ·) := by
    conv_lhs => rw [happend]
    refine Text.takeWhile_append_of_head? fun c hc => ?_
    exact decide_eq_false fun hplain => hplain.1 (hrest c hc)
  have hquote : '"' ∉ firstWord part := by
    intro hin
    have hword := h.quotes part hpart hin
    rw [hrun, hword] at hlength
    revert hlength
    decide
  have hblank : ∀ c ∈ firstWord part, ¬ IsSpace c := by
    refine h.blanks part hpart ?_
    rcases hlength with hlength | hlength
    · exact hlength
    · rw [hrun] at hlength
      exact hlength.trans (javaLength_le_of_sublist (List.takeWhile_sublist _))
  rw [hrun, eq_comm, List.takeWhile_eq_self_iff]
  intro c hc
  have hhash : c ≠ '#' := by
    rintro rfl
    refine Text.notMem_of_mem_splitOn hpart ?_
    rw [happend]
    exact List.mem_append_left _ hc
  exact decide_eq_true ⟨hblank c hc, hhash, ne_of_mem_of_not_mem hc hquote⟩

/-- The tags of a clean text are runs. -/
theorem Clean.sound {text tag : String} (h : Clean text)
    (htag : tag ∈ (extractTags text none).keys) : IsRun text.toList tag.toList := by
  obtain ⟨hproto, hlength, part, hpart, hword⟩ := mem_extractTags_iff.mp htag
  have hquote : '"' ∉ firstWord part := by
    intro hin
    rw [h.quotes part hpart hin] at hword
    obtain rfl : tag = "\\\"" := String.toList_inj.mp hword.symm
    revert hlength
    decide
  rw [replaceQuote_of_notMem hquote] at hword
  have hlength' : 3 ≤ javaLength (String.ofList (firstWord part)) := by
    rwa [hword, String.ofList_toList]
  rw [← hword]
  by_cases hstray : (text.toList.splitOn '#').head? = some part ∨ ∃ c ∈ part.head?, IsSpace c
  · refine h.strays part hpart hstray hlength' ?_
    rw [hword]
    exact fun heq => hproto (String.toList_inj.mp heq)
  · -- the part begins with the run
    obtain ⟨hfirst, hspace⟩ := not_or.mp hstray
    refine isRun_iff.mpr ⟨part, ?_, ?_⟩
    · rw [Text.splitOn_eq_cons] at hpart hfirst
      refine (List.mem_cons.mp hpart).resolve_left ?_
      rintro rfl
      exact hfirst rfl
    · exact (h.firstWord_eq hpart (fun c hc hs => hspace ⟨c, hc, hs⟩) (.inl hlength')).symm

/-- The runs of a clean text are tags. -/
theorem Clean.complete {text tag : String} (h : Clean text) (hrun : IsRun text.toList tag.toList)
    (hlength : 3 ≤ javaLength tag) : tag ∈ (extractTags text none).keys := by
  obtain ⟨part, hpart, htake⟩ := isRun_iff.mp hrun
  have hmem : part ∈ text.toList.splitOn '#' := List.mem_of_mem_tail hpart
  rw [← String.ofList_toList (s := tag), ← htake] at hlength ⊢
  have hspace : ∀ c ∈ part.head?, ¬ IsSpace c := by
    intro c hc hs
    obtain ⟨part, rfl⟩ := List.head?_eq_some_iff.mp hc
    rw [List.takeWhile_cons_of_neg (by simpa using fun hplain : IsPlain c => hplain.1 hs)]
      at hlength
    revert hlength
    decide
  have hword := h.firstWord_eq hmem hspace (.inr hlength)
  rw [← hword] at hlength ⊢
  refine mem_extractTags_of_firstWord hmem ?_ hlength ?_
  · intro hin
    rw [hword] at hin
    have hplain : IsPlain '"' := by simpa using List.mem_takeWhile_imp hin
    exact hplain.2.2 rfl
  · intro hproto
    rw [← htake, ← hword, hproto] at hrun
    exact h.proto hrun

theorem Clean.exact {text : String} (h : Clean text) : Exact text :=
  ⟨fun _ => h.sound, fun _ => h.complete⟩

/-- **Which texts have their tags extracted.** -/
theorem exact_iff (text : String) : Exact text ↔ Clean text := ⟨Exact.clean, Clean.exact⟩

/-- A text without a `#`. -/
theorem not_forall_exact : ¬ ∀ text, Exact text := by
  intro h
  have htag : "hello" ∈ (extractTags "hello" none).keys := by decide +kernel
  obtain ⟨l₁, l₂, htext, -⟩ := (h "hello").sound _ htag
  have hmem : '#' ∈ "hello".toList := by
    rw [htext]
    simp
  revert hmem
  decide

/-- Where the texts are clean, a message goes to the channels that they name. -/
theorem mem_handleSendText_iff {theAlwaysTags str channel : String}
    (h : Clean (str ++ " " ++ theAlwaysTags)) (hstr : str ≠ "") :
    channel ∈ handleSendText theAlwaysTags str ↔ ∃ tag : String, channel = "#" ++ tag ∧
      3 ≤ javaLength tag ∧ IsRun (str ++ " " ++ theAlwaysTags).toList tag.toList := by
  have hlength : ¬ javaLength str < 1 := by
    have hle := length_le_javaLength str
    have hpos : str.length ≠ 0 := by simpa using hstr
    omega
  rw [handleSendText, if_neg hlength, List.mem_map]
  constructor
  · rintro ⟨tag, htag, rfl⟩
    exact ⟨tag, rfl, (mem_extractTags_iff.mp htag).2.1, h.exact.sound tag htag⟩
  · rintro ⟨tag, rfl, htag, hrun⟩
    exact ⟨tag, h.exact.complete tag hrun htag, rfl⟩

end WootWideChat

end Gwems
