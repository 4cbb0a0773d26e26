import Gwems.Messages.ChannelNames
import Gwems.WebContent.WootWideChat

/-!
# The topics of a chat page

A page of `WootWideChat.html` keeps the names that it watches as the set that `wwc.extractTags`
makes of its list; the server trims them. Where no name that is given up denotes a channel that
stays (`GWEMS.Separable`), a session that has the channels of the old list gets those of the new one
(`GWEMS.Separable.mem_wanted`). Lists without control characters other than white space give such
names (`separable_of_trimmed`, `javaTrim_of_mem_tagSet`).
-/

namespace Gwems

namespace WootWideChat

/-! ### The set of an `extractTags` -/

/-- `wwc.extractTags` puts each name under itself. -/
theorem extractTags_value {text : String} {delim : Option Char} {key : String}
    {value : Option String} (h : (extractTags text delim).get? key = some value) :
    value = some key := by
  have hfold : ∀ (parts : List (List Char)) (o : JsObject),
      (∀ key value, o.get? key = some value → value = some key) →
      ∀ key value, (parts.foldl (fun result part =>
        let str := String.ofList (replaceQuote (firstWord part))
        if 3 ≤ javaLength str then result.assign str (some str) else result) o).get? key =
        some value → value = some key := by
    intro parts
    induction parts with
    | nil => exact fun o ho => ho
    | cons part parts ih =>
      intro o ho
      refine ih _ fun key value hget => ?_
      dsimp only at hget
      split at hget
      next hlength =>
        rw [JsObject.assign] at hget
        split at hget
        next => exact ho key value hget
        next =>
          rw [KMap.get?_put] at hget
          split at hget
          next hkey => rw [← Option.some_inj.mp hget, JsObject.names_same.mp hkey]
          next => exact ho key value hget
      next => exact ho key value hget
  exact hfold _ ∅ (by simp) key value h

/-- What `extractTags` returns, as a set of names. -/
def tagSet (text : String) (delim : Option Char) : ChannelNames where
  object := extractTags text delim
  value_eq _ _ := extractTags_value

/-- The names of the set: for each part its first word, if it has three characters. -/
theorem mem_tagSet_iff {text name : String} {delim : Option Char} :
    name ∈ tagSet text delim ↔ name ≠ "__proto__" ∧ 3 ≤ javaLength name ∧
      ∃ part ∈ text.toList.splitOn (delim.getD '#'),
        replaceQuote (firstWord part) = name.toList := by
  have hcollect := GWEMS.mem_keys_collect (fun str => decide (3 ≤ javaLength str)) (k := name)
    ((text.toList.splitOn (delim.getD '#')).map fun part =>
      String.ofList (replaceQuote (firstWord part))) ∅ (by rfl)
  rw [List.foldl_map] at hcollect
  simp only [decide_eq_true_eq] at hcollect
  have hempty : name ∉ (∅ : JsObject).keys := by simp [JsObject.mem_keys]
  have hname : name ∈ ((text.toList.splitOn (delim.getD '#')).map fun part =>
      String.ofList (replaceQuote (firstWord part))) ↔
      ∃ part ∈ text.toList.splitOn (delim.getD '#'),
        replaceQuote (firstWord part) = name.toList := by
    simp only [List.mem_map, ← String.toList_inj, String.toList_ofList]
  refine Iff.trans hcollect ?_
  rw [or_iff_right hempty, hname]
  constructor
  · rintro ⟨hpart, hlength, hproto⟩
    exact ⟨hproto, hlength, hpart⟩
  · rintro ⟨hproto, hlength, hpart⟩
    exact ⟨hpart, hlength, hproto⟩

end WootWideChat

/-! ### Channels of one session -/

namespace Global

variable {M : Type*} {g g' : Global M} {a : Agent} {call : SubscriptionCall} {c : String}

/-- What a call does to the channels of an agent. -/
theorem mem_channels_perform :
    c ∈ (g.perform call).channels a ↔ call.effect a c (decide (c ∈ g.channels a)) = true := by
  simp only [mem_channels]
  cases call with
  | subscribe b d =>
    by_cases hd : d.length = 0
    · rw [perform, subscribe_of_length_eq_zero hd]
      simp [SubscriptionCall.effect, hd]
    · rw [perform, subscribe_session2channel hd, SessionMap.mem_things_add]
      simp [SubscriptionCall.effect, hd, eq_comm (a := b) (b := a), eq_comm (a := d) (b := c)]
  | unsubscribe b d =>
    rw [perform, unsubscribe_session2channel, SessionMap.mem_things_remove]
    simp [SubscriptionCall.effect, eq_comm (a := b) (b := a), eq_comm (a := d) (b := c)]
    exact fun _ => imp_iff_not_or
  | unsubscribeAgent b =>
    rw [perform, unsubscribeAgent_session2channel, SessionMap.mem_things_removeItem]
    simp [SubscriptionCall.effect, eq_comm (a := b) (b := a)]

/-- A call of another agent does nothing. -/
theorem mem_channels_perform_of_ne (call : SubscriptionCall) (hcall : call.agent ≠ a) :
    c ∈ (g.perform call).channels a ↔ c ∈ g.channels a := by
  rw [mem_channels_perform]
  cases call with
  | subscribe b d =>
    have hb : b ≠ a := hcall
    simp [SubscriptionCall.effect, hb]
  | unsubscribe b d =>
    have hb : b ≠ a := hcall
    simp [SubscriptionCall.effect, hb]
  | unsubscribeAgent b =>
    have hb : b ≠ a := hcall
    simp [SubscriptionCall.effect, hb]

/-- The messages of a session do the same wherever its channels are the same. -/
theorem mem_channels_runAll_congr (h : ∀ c, c ∈ g.channels a ↔ c ∈ g'.channels a)
    (messages : List SocketMessage) :
    ∀ c, c ∈ (GWEMS.runAll a g messages).channels a ↔
      c ∈ (GWEMS.runAll a g' messages).channels a := by
  induction messages generalizing g g' with
  | nil => exact h
  | cons message messages ih =>
    refine ih fun c => ?_
    rw [GWEMS.run, GWEMS.run]
    cases message.call a with
    | none => exact h c
    | some call =>
      change c ∈ (g.perform call).channels a ↔ c ∈ (g'.perform call).channels a
      rw [mem_channels_perform, mem_channels_perform, decide_eq_decide.mpr (h c)]

end Global

namespace GWEMS

/-- The channel to which an agent subscribes itself. -/
def own (a : Agent) : Set String := {c | c = a.hash ∧ c.length ≠ 0}

/-- Where the names are separable, a session that has the channels of `before` gets those of
`after`. -/
theorem Separable.mem_wanted {M : Type*} {g : Global M} {a : Agent} {before after : ChannelNames}
    (h : Separable (own a) before after)
    (hbefore : ∀ c, c ∈ g.channels a ↔ c ∈ wanted (own a) before) (c : String) :
    c ∈ (runAll a g (subscribeChanges before.object after.object)).channels a ↔
      c ∈ wanted (own a) after := by
  -- an agent that has subscribed to nothing but its key
  have hown : {c | c ∈ (({} : Global M).perform (.subscribe a a.hash)).channels a} = own a := by
    ext c
    have hempty : c ∉ ({} : Global M).channels a := by
      rw [Global.mem_channels]
      exact TwoWayMapping.not_mem_things_empty
    simp only [Set.mem_ofPred_eq, Global.mem_channels_perform, SubscriptionCall.effect, own, hempty]
    simp [eq_comm (a := a.hash) (b := c)]
    rintro rfl
    rfl
  have hreach := Separable.channels (hown.symm ▸ h) c
  rw [hown] at hreach
  rw [← hreach]
  refine Global.mem_channels_runAll_congr (fun c => ?_) _ c
  rw [hbefore, mem_channels_subscribe, hown]

end GWEMS

/-! ### Typed lists -/

namespace WootWideChat

/-- A text without control characters other than white space. -/
def IsTyped (text : String) : Prop := ∀ c ∈ text.toList, c ≤ ' ' → IsSpace c

instance (text : String) : Decidable (IsTyped text) :=
  List.decidableBAll (fun c => c ≤ ' ' → IsSpace c) text.toList

variable {l : List Char} {text name : String} {c : Char}

theorem javaTrim_eq_self_of_ends (hfirst : ∀ c ∈ name.toList.head?, ¬ c ≤ ' ')
    (hlast : ∀ c ∈ name.toList.getLast?, ¬ c ≤ ' ') : javaTrim name = name := by
  rw [javaTrim, Text.dropWhile_of_head? (l := name.toList) (by simpa using hfirst),
    Text.dropWhile_of_head? (by simpa using hlast), List.reverse_reverse, String.ofList_toList]

/-- A trimmed text does not begin with white space, nor does it end with it. -/
theorem not_isSpace_of_mem_head?_trim (h : c ∈ (trim l).head?) : ¬ IsSpace c := by
  have hprefix : trim l <+: l.dropWhile (IsSpace ·) := List.rdropWhile_prefix _ _
  have hhead : c ∈ (l.dropWhile (IsSpace ·)).head? := by
    obtain ⟨rest, hrest⟩ := hprefix
    obtain ⟨word, hword⟩ := List.head?_eq_some_iff.mp h
    rw [← hrest, hword]
    rfl
  simpa using Text.of_mem_head?_dropWhile hhead

theorem not_isSpace_of_mem_getLast?_trim (h : c ∈ (trim l).getLast?) : ¬ IsSpace c := by
  rw [trim, List.rdropWhile, List.getLast?_reverse] at h
  simpa using Text.of_mem_head?_dropWhile h

theorem mem_of_mem_trim (h : c ∈ trim l) : c ∈ l :=
  (List.dropWhile_sublist _).subset ((List.rdropWhile_prefix _ _).subset h)

/-- Without blanks the first word is all of the text. -/
theorem firstWord_eq_trim (h : ' ' ∉ l) : firstWord l = trim l := by
  rw [firstWord, List.takeWhile_eq_self_iff]
  intro c hc
  exact decide_eq_true fun hblank => h (hblank ▸ mem_of_mem_trim hc)

/-- A quote that gets a backslash is still there. -/
theorem head?_replaceQuote (h : c ∈ (replaceQuote l).head?) : c = '\\' ∨ c ∈ l.head? := by
  cases l with
  | nil => cases h
  | cons d l =>
    rw [replaceQuote] at h
    split at h
    next => exact .inl (Option.some.inj h).symm
    next => exact .inr h

theorem getLast?_replaceQuote (l : List Char) : (replaceQuote l).getLast? = l.getLast? := by
  induction l with
  | nil => rfl
  | cons c l ih =>
    rw [replaceQuote]
    split
    next h => rw [h, List.getLast?_cons_cons]
    next =>
      rw [List.getLast?_cons, ih, List.getLast?_cons]

/-- The server takes the names of a typed list for channels as they are. -/
theorem javaTrim_of_mem_tagSet (htyped : IsTyped text) (h : name ∈ tagSet text (some ' ')) :
    javaTrim name = name := by
  obtain ⟨-, -, part, hpart, hname⟩ := mem_tagSet_iff.mp h
  have hchars : ∀ c ∈ part, c ≤ ' ' → IsSpace c := fun c hc =>
    htyped c (Text.mem_of_mem_splitOn hpart hc)
  rw [firstWord_eq_trim (Text.notMem_of_mem_splitOn hpart)] at hname
  refine javaTrim_eq_self_of_ends (fun c hc hle => ?_) (fun c hc hle => ?_)
  · rw [← hname] at hc
    rcases head?_replaceQuote hc with rfl | hc
    · exact absurd hle (by decide)
    · exact not_isSpace_of_mem_head?_trim hc
        (hchars c (mem_of_mem_trim (List.mem_of_mem_head? hc)) hle)
  · rw [← hname, getLast?_replaceQuote] at hc
    exact not_isSpace_of_mem_getLast?_trim hc
      (hchars c (mem_of_mem_trim (List.mem_of_getLast? hc)) hle)

/-- Where the server takes all names for channels as they are, the names that are given up denote
nothing that stays, unless one of them is the key of the session itself. -/
theorem separable_of_trimmed {a : Agent} {before after : ChannelNames}
    (hbefore : ∀ name ∈ before, javaTrim name = name ∧ name ≠ "__proto__")
    (hafter : ∀ name ∈ after, javaTrim name = name ∧ name ≠ "__proto__")
    (hkey : a.hash ∉ before) : GWEMS.Separable (GWEMS.own a) before after where
  gone name hname hgone _ c hdenotes hwanted := by
    obtain rfl : name = c := (hbefore name hname).1.symm.trans hdenotes.2.2
    rcases hwanted with hown | ⟨-, name', hname', hdenotes'⟩
    · exact hkey (hown.1 ▸ hname)
    · obtain rfl : name' = name := (hafter name' hname').1.symm.trans hdenotes'.2.2
      exact hgone hname'
  proto_new hproto := absurd rfl (hafter _ hproto).2
  proto_gone hproto := absurd rfl (hbefore _ hproto).2

end WootWideChat

end Gwems
