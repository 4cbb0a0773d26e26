import Gwems.Library.Json

/-!
# `Push2Client`: the codec of payloads

Messages are Java objects that Jackson writes as JSON: an object has the name of its class under the
key `@` and then its fields. The `msg` of a `gwems.Push2Client` is declared as an `Object` and has a
serializer and a deserializer of its own. `JsType.MySerializer` decides by the Java type: strings,
messages, and everything else, which is written "without types mapped". `JsType.MyDeserializer`
decides by the token, and for an object by the presence of `@`.

`Fits.readsBack` is the round trip for all messages: where no payload is an untyped map with the key
`@`, reading what was written gives the value back. `push2Client_round_trip` says it for a
`Push2Client`. An untyped map with the key `@` is taken for a message: `at_key_becomes_runnable`.

The mapper keeps `FAIL_ON_EMPTY_BEANS`, so that a message without fields, like `gwems.Ping` and
`d.Live`, can be read but not written.

Jackson itself is a parameter: it prints trees and reads back what it printed (`ObjectMapper`).
-/

namespace Gwems

/-! ### Values and classes -/

/-- A printer and a parser of JSON trees that do not lose anything. -/
structure ObjectMapper (ν : Type*) where
  print : Json ν → String
  parse : String → Option (Json ν)
  parse_print : ∀ j, j.Distinct → parse (print j) = some j

/-- The declared types of fields, as far as messages have them: `String`, `List<String>`,
`Runnable`, and `Object` with the serializer and the deserializer of `JsType`. -/
inductive FieldKind
  | string
  | strings
  | runnable
  | payload
deriving DecidableEq

/-- The values of fields: a `String`, an `ArrayList<String>`, untyped data (maps, lists, numbers and
booleans, or the tree that Jackson reads of them), or a message with the values of its fields. -/
inductive Value (ν : Type*)
  | null
  | string (s : String)
  | strings (l : List String)
  | tree (j : Json ν)
  | bean (cls : String) (values : List (Value ν))

/-- Induction on values: a message has the property if the values of its fields have it. -/
theorem Value.induct {ν : Type*} {P : Value ν → Prop} (null : P .null)
    (string : ∀ s, P (.string s)) (strings : ∀ l, P (.strings l)) (tree : ∀ j, P (.tree j))
    (bean : ∀ cls values, (∀ value ∈ values, P value) → P (.bean cls values)) (value : Value ν) :
    P value := by
  refine @Value.rec ν P (fun l => ∀ value ∈ l, P value) null string strings tree bean ?_ ?_ value
  · simp
  · exact fun v l hv hl => List.forall_mem_cons.mpr ⟨hv, hl⟩

/-- A field of a class of messages. -/
structure MessageField (ν : Type*) where
  name : String
  kind : FieldKind
  default : Value ν

namespace Push2Client

variable {ν : Type*}

/-- `Object msg = "none"`. -/
def fields : List (MessageField ν) := [⟨"msg", .payload, .string "none"⟩]

end Push2Client

/-- The message `new Push2Client(msg)`. -/
def push2Client {ν : Type*} (msg : Value ν) : Value ν := .bean "gwems.Push2Client" [msg]

/-- The classes of messages that Jackson finds by their names, with their fields in the order of
their declaration. -/
structure MessageClasses (ν : Type*) where
  fields? : String → Option (List (MessageField ν))
  distinct : ∀ cls fields, fields? cls = some fields → ("@" :: fields.map MessageField.name).Nodup
  push2Client : fields? "gwems.Push2Client" = some Push2Client.fields

/-- A field that holds a string. -/
def stringField {ν : Type*} (name : String) (default : Option String) : MessageField ν :=
  ⟨name, .string, default.elim .null .string⟩

/-- The messages of the packages `gwems` and `d`. -/
def packageTable (ν : Type*) : List (String × List (MessageField ν)) :=
  let none : Value ν := push2Client (.string "none")
  [("gwems.Ack", [stringField "session" (some "unknown"), stringField "version" (some ".01"),
      stringField "server" (some "S001")]),
    ("gwems.Js", [stringField "js" (some "console.log('Hello World');")]),
    ("gwems.MultiPublish", [⟨"channels", .strings, .strings []⟩, ⟨"msg", .runnable, none⟩]),
    ("gwems.Ping", []),
    ("gwems.Publish", [stringField "channel" (some "na"), ⟨"msg", .runnable, none⟩]),
    ("gwems.Push2Client", Push2Client.fields),
    ("gwems.Subscribe", [stringField "channel" (some "none")]),
    ("gwems.Unsubscribe", [stringField "channel" (some "none")]),
    ("d.Live", []),
    ("d.P2C", [stringField "c" (some "none"), stringField "m" (some "none")]),
    ("d.Pub", [stringField "c" (some "na"), ⟨"m", .runnable, .null⟩]),
    ("d.Sub", [stringField "c" Option.none]),
    ("d.Unsub", [stringField "channel" Option.none])]

/-- The messages of the packages `gwems` and `d` as classes. -/
def packageClasses (ν : Type*) : MessageClasses ν where
  fields? cls := (packageTable ν).lookup cls
  distinct cls fields h := by
    have hall : ∀ e ∈ packageTable ν, ("@" :: e.2.map MessageField.name).Nodup := by
      simp [packageTable, stringField, Push2Client.fields]
    exact hall _ (Json.mem_of_lookup_eq_some h)
  push2Client := rfl

/-! ### Writing -/

namespace JsType

variable {ν : Type*}

/-- `MySerializer.serialize(value)`, where `typed` is what `writeObject` writes for the value. The
last three cases are those of the mapper "without types". -/
def serialize (value : Value ν) (typed : Option (Json ν)) : Option (Json ν) :=
  match value with
  | .string s => some (.str s)
  | .bean _ _ => typed
  | .null => some .null
  | .strings l => some (.arr (l.map .str))
  | .tree j => some j

/-- `MyDeserializer.deserialize`, where `deserialize` is `Global.deserialize`. Jackson reads a
`null` without asking it. -/
def deserialize (J : ObjectMapper ν) (deserialize : String → Option (Value ν)) :
    Json ν → Option (Value ν)
  | .null => some .null
  | .str s => some (.string s)
  | .obj entries =>
    if (entries.lookup "@").isSome then deserialize (J.print (.obj entries))
    else some (.tree (.obj entries))
  -- "an Array??"
  | j => some (.tree j)

end JsType

namespace MessageClasses

variable {ν : Type*} (classes : MessageClasses ν) (J : ObjectMapper ν)

/-- What stands in the field of a message, where `typed` is what `writeObject` writes for it. -/
def writeField (kind : FieldKind) (value : Value ν) (typed : Option (Json ν)) :
    Option (Json ν) :=
  match kind with
  | .payload => JsType.serialize value typed
  | .string | .strings | .runnable => typed

mutual

/-- Write a value with types: a message starts with the name of its class, and a list is wrapped
with that of its own. A class without fields has no serializer. -/
def writeObject : Value ν → Option (Json ν)
  | .null => some .null
  | .string s => some (.str s)
  | .strings l => some (.arr [.str "java.util.ArrayList", .arr (l.map .str)])
  | .tree j => some j
  | .bean cls values =>
    match classes.fields? cls with
    | some (f :: fields) =>
      (writeFields (f :: fields) values).map fun entries => .obj (("@", .str cls) :: entries)
    | some [] | none => none

/-- Write the fields of a message. -/
def writeFields : List (MessageField ν) → List (Value ν) → Option (List (String × Json ν))
  | f :: fields, value :: values =>
    match writeField f.kind value (writeObject value), writeFields fields values with
    | some j, some entries => some ((f.name, j) :: entries)
    | _, _ => none
  | _, _ => some []

end

/-- `Global.serialize(message)`, unless it throws. -/
def serialize (message : Value ν) : Option String := (classes.writeObject message).map J.print

/-! ### Reading -/

/-- Read a `String`. Other scalars are taken as text. -/
def readString : Json ν → Option (Value ν)
  | .null => some .null
  | .str s => some (.string s)
  | .bool b => some (.string (if b then "true" else "false"))
  | .num n => some (.string (J.print (.num n)))
  | .arr _ | .obj _ => none

/-- Read an item of a list of strings. -/
def readItem : Json ν → Option String
  | .str s => some s
  | .null | .bool _ | .num _ | .arr _ | .obj _ => none

/-- Read a `List<String>` that is wrapped with the name of its class. -/
def readStrings : Json ν → Option (Value ν)
  | .null => some .null
  | .arr [.str "java.util.ArrayList", .arr items] =>
    (items.mapM readItem).map .strings
  | _ => none

/-- Read a field, where `read` reads messages. -/
def readField (read : Json ν → Option (Value ν)) : FieldKind → Json ν → Option (Value ν)
  | .string, j => readString J j
  | .strings, j => readStrings j
  | .runnable, j => read j
  | .payload, j => JsType.deserialize J (fun s => (J.parse s).bind read) j

/-- Read one field of an object; a field that is missing has its default. -/
def readNamed (read : FieldKind → Json ν → Option (Value ν)) (entries : List (String × Json ν))
    (f : MessageField ν) : Option (Value ν) :=
  match entries.lookup f.name with
  | some j => read f.kind j
  | none => some f.default

/-- Read a message: the class is found by its name, and every key is the name of a field. The number
bounds the depth of messages in messages. -/
def readObject : ℕ → Json ν → Option (Value ν)
  | n + 1, .obj entries =>
    match entries.lookup "@" with
    | some (.str cls) => (classes.fields? cls).bind fun fields =>
      if entries.all fun e => e.1 = "@" ∨ e.1 ∈ fields.map MessageField.name then
        (fields.mapM (readNamed (readField J (readObject n)) entries)).map (.bean cls)
      else none
    | _ => none
  | _, .null => some .null
  | _, _ => none

/-- `Global.deserialize(s)`. -/
def deserialize (s : String) : Option (Value ν) :=
  (J.parse s).bind fun tree => classes.readObject J tree.depth tree

/-! ### Values that fit -/

/-- Untyped data as the value of an `Object` that is neither a `String` nor `null`: a tree of maps,
in which no key is twice, of lists, and of scalars. -/
structure IsUntyped (j : Json ν) : Prop where
  not_string : ∀ s, j ≠ .str s
  not_null : j ≠ .null
  distinct : j.Distinct

/-- Whether a tree is a map with the key `@`. -/
def HasAt : Json ν → Bool
  | .obj entries => (entries.lookup "@").isSome
  | _ => false

/-- The values that a field of each kind can have: the ones of its Java type, where every message
has a field, and no payload is an untyped map with the key `@`, at any depth of messages in
messages. -/
inductive Fits : FieldKind → Value ν → Prop
  | null (kind : FieldKind) : Fits kind .null
  | string (s : String) : Fits .string (.string s)
  | strings (l : List String) : Fits .strings (.strings l)
  | text (s : String) : Fits .payload (.string s)
  | tree (j : Json ν) (hj : IsUntyped j) (hat : HasAt j = false) : Fits .payload (.tree j)
  | bean (kind : FieldKind) (hkind : kind = .runnable ∨ kind = .payload) (cls : String)
      (fields : List (MessageField ν)) (values : List (Value ν))
      (hcls : classes.fields? cls = some fields) (hne : fields ≠ [])
      (hlength : fields.length = values.length)
      (hvalues : ∀ p ∈ fields.zip values, Fits p.1.kind p.2) : Fits kind (.bean cls values)

variable {classes} {J}

/-- Fields are written one by one, under their names. -/
theorem exists_writeFields {P : MessageField ν × Value ν → Json ν → Prop}
    {fields : List (MessageField ν)} {values : List (Value ν)}
    (hlength : fields.length = values.length)
    (h : ∀ p ∈ fields.zip values,
      ∃ j, writeField p.1.kind p.2 (classes.writeObject p.2) = some j ∧ P p j) :
    ∃ entries, classes.writeFields fields values = some entries ∧
      entries.map Prod.fst = fields.map MessageField.name ∧
      (∀ p ∈ fields.zip values, ∃ j, (p.1.name, j) ∈ entries ∧ P p j) ∧
      ∀ e ∈ entries, ∃ p ∈ fields.zip values, P p e.2 := by
  induction fields generalizing values with
  | nil => exact ⟨[], by rw [writeFields.eq_def], rfl, by simp, by simp⟩
  | cons f fields ih =>
    cases values with
    | nil => cases hlength
    | cons value values =>
      rw [List.zip_cons_cons, List.forall_mem_cons] at h
      obtain ⟨⟨j, hj, hP⟩, hrest⟩ := h
      obtain ⟨entries, hentries, hnames, hwritten, hall⟩ := ih (Nat.succ_injective hlength) hrest
      refine ⟨(f.name, j) :: entries, by simp only [writeFields, hj, hentries],
        by rw [List.map_cons, List.map_cons, hnames], ?_, ?_⟩
      · rw [List.zip_cons_cons, List.forall_mem_cons]
        refine ⟨⟨j, List.mem_cons_self, hP⟩, fun p hp => ?_⟩
        obtain ⟨i, hi, hPi⟩ := hwritten p hp
        exact ⟨i, List.mem_cons_of_mem _ hi, hPi⟩
      · rw [List.forall_mem_cons, List.zip_cons_cons]
        refine ⟨⟨_, List.mem_cons_self, hP⟩, fun e he => ?_⟩
        obtain ⟨p, hp, hPe⟩ := hall e he
        exact ⟨p, List.mem_cons_of_mem _ hp, hPe⟩

/-- A message is written alike in a field of either kind. -/
theorem writeField_bean {kind : FieldKind} (hkind : kind = .runnable ∨ kind = .payload)
    {cls : String} {fields : List (MessageField ν)} {values : List (Value ν)}
    {entries : List (String × Json ν)} (hcls : classes.fields? cls = some fields)
    (hne : fields ≠ []) (hentries : classes.writeFields fields values = some entries) :
    writeField kind (.bean cls values) (classes.writeObject (.bean cls values)) =
      some (.obj (("@", .str cls) :: entries)) := by
  obtain ⟨f, fields, rfl⟩ := List.exists_cons_of_ne_nil hne
  have hwrite : classes.writeObject (.bean cls values) =
      some (.obj (("@", .str cls) :: entries)) := by
    rw [writeObject, hcls]
    simp only [hentries, Option.map_some]
  rcases hkind with rfl | rfl
  · exact hwrite
  · exact hwrite

/-! ### The round trip -/

/-- A list is mapped to a list of answers, one by one. -/
theorem mapM_eq_some {α β : Type*} {f : α → Option β} {l : List α} {m : List β}
    (hlength : l.length = m.length) (h : ∀ p ∈ l.zip m, f p.1 = some p.2) :
    l.mapM f = some m := by
  induction l generalizing m with
  | nil =>
    obtain rfl : m = [] := List.length_eq_zero_iff.mp hlength.symm
    rfl
  | cons a l ih =>
    cases m with
    | nil => cases hlength
    | cons b m =>
      rw [List.zip_cons_cons, List.forall_mem_cons] at h
      rw [List.mapM_cons, h.1, ih (Nat.succ_injective hlength) h.2]
      rfl

/-- A message is read back, if the fields are. -/
theorem readObject_of_entries {cls : String} {fields : List (MessageField ν)}
    {values : List (Value ν)} {entries : List (String × Json ν)} {n : ℕ}
    (hcls : classes.fields? cls = some fields) (hlength : fields.length = values.length)
    (hnames : entries.map Prod.fst = fields.map MessageField.name)
    (hvalues : ∀ p ∈ fields.zip values, ∃ j, (p.1.name, j) ∈ entries ∧
      readField J (classes.readObject J n) p.1.kind j = some p.2) :
    classes.readObject J (n + 1) (.obj (("@", .str cls) :: entries)) =
      some (.bean cls values) := by
  have hkeys : ((("@", Json.str cls) :: entries).map Prod.fst).Nodup := by
    rw [List.map_cons, hnames]
    exact classes.distinct cls fields hcls
  have hknown : (("@", Json.str cls) :: entries).all
      (fun e => e.1 = "@" ∨ e.1 ∈ fields.map MessageField.name) = true := by
    simp only [List.all_eq_true, decide_eq_true_eq]
    intro e he
    rcases List.mem_cons.mp he with rfl | he
    · exact .inl rfl
    · exact .inr (hnames ▸ List.mem_map_of_mem he)
  have hmap : fields.mapM (readNamed (readField J (classes.readObject J n))
      (("@", Json.str cls) :: entries)) = some values := by
    refine mapM_eq_some hlength fun p hp => ?_
    obtain ⟨j, hj, hread⟩ := hvalues p hp
    rw [readNamed, Json.lookup_eq_some_of_mem hkeys (List.mem_cons_of_mem _ hj)]
    exact hread
  simp only [readObject, List.lookup_cons_self, hcls, Option.bind_some, hknown, if_true, hmap,
    Option.map_some]

theorem mapM_readItem (l : List String) : (l.map Json.str).mapM (readItem (ν := ν)) = some l := by
  induction l with
  | nil => rfl
  | cons s l ih =>
    rw [List.map_cons, List.mapM_cons, ih]
    rfl

/-- The tree that is written for a value has no key twice, and is read as the value, with a bound
as deep as it is nested. -/
structure ReadsBack (classes : MessageClasses ν) (J : ObjectMapper ν) (kind : FieldKind)
    (value : Value ν) (j : Json ν) : Prop where
  distinct : j.Distinct
  read : ∀ n, j.depth ≤ n → readField J (classes.readObject J n) kind j = some value

theorem IsUntyped.readsBack {j : Json ν} (hj : IsUntyped j) (hat : HasAt j = false) :
    ReadsBack classes J .payload (.tree j) j := by
  refine ⟨hj.distinct, fun n _ => ?_⟩
  cases j with
  | null => exact absurd rfl hj.not_null
  | str s => exact absurd rfl (hj.not_string s)
  | obj entries => exact if_neg (Bool.eq_false_iff.mp hat)
  | bool b => rfl
  | num m => rfl
  | arr items => rfl

/-- A message is read back, if its fields are. -/
theorem readsBack_bean {kind : FieldKind} (hkind : kind = .runnable ∨ kind = .payload)
    {cls : String} {fields : List (MessageField ν)} {values : List (Value ν)}
    {entries : List (String × Json ν)} (hcls : classes.fields? cls = some fields)
    (hlength : fields.length = values.length)
    (hnames : entries.map Prod.fst = fields.map MessageField.name)
    (hwritten : ∀ p ∈ fields.zip values, ∃ j, (p.1.name, j) ∈ entries ∧
      ReadsBack classes J p.1.kind p.2 j)
    (hall : ∀ e ∈ entries, ∃ p ∈ fields.zip values, ReadsBack classes J p.1.kind p.2 e.2) :
    ReadsBack classes J kind (.bean cls values) (.obj (("@", .str cls) :: entries)) := by
  have hdistinct : (Json.obj (("@", .str cls) :: entries)).Distinct := by
    rw [Json.distinct_obj, List.map_cons, hnames]
    refine ⟨classes.distinct cls fields hcls, List.forall_mem_cons.mpr ⟨trivial, fun e he => ?_⟩⟩
    obtain ⟨p, -, hp⟩ := hall e he
    exact hp.distinct
  refine ⟨hdistinct, fun n hn => ?_⟩
  obtain ⟨n, rfl⟩ : ∃ m, n = m + 1 := ⟨n - 1, by rw [Json.depth] at hn; omega⟩
  have hread : classes.readObject J (n + 1) (.obj (("@", .str cls) :: entries)) =
      some (.bean cls values) := by
    refine readObject_of_entries hcls hlength hnames fun p hp => ?_
    obtain ⟨j, hj, hback⟩ := hwritten p hp
    have hdepth := Json.depth_le_depthEntries (List.mem_cons_of_mem ("@", Json.str cls) hj)
    rw [Json.depth] at hn
    exact ⟨j, hj, hback.read n (hdepth.trans (by omega))⟩
  rcases hkind with rfl | rfl
  · exact hread
  · -- the object has the key `@`, so that its text is read again as a message
    rw [readField, JsType.deserialize, List.lookup_cons_self, Option.isSome_some, if_pos rfl,
      J.parse_print _ hdistinct, Option.bind_some, hread]

/-- **Every value that fits is written, and read back.** -/
theorem Fits.readsBack {kind : FieldKind} {value : Value ν} (h : classes.Fits kind value) :
    ∃ j, writeField kind value (classes.writeObject value) = some j ∧
      ReadsBack classes J kind value j := by
  induction value using Value.induct generalizing kind with
  | null =>
    refine ⟨.null, ?_, trivial, fun n _ => ?_⟩
    · cases kind <;> rfl
    · cases kind with
      | runnable => cases n <;> rfl
      | string => rfl
      | strings => rfl
      | payload => rfl
  | string s =>
    refine ⟨.str s, ?_, trivial, fun n _ => ?_⟩
    · cases h <;> rfl
    · cases h <;> rfl
  | strings l =>
    cases h
    refine ⟨.arr [.str "java.util.ArrayList", .arr (l.map .str)], by rw [writeField, writeObject],
      ?_, fun n _ => ?_⟩
    · rw [Json.Distinct, Json.distinctItems_iff]
      simp [Json.Distinct, Json.distinctItems_iff]
    · simp only [readField, readStrings, mapM_readItem, Option.map_some]
  | tree j =>
    cases h with
    | tree _ hj hat => exact ⟨j, rfl, hj.readsBack hat⟩
  | bean cls values ih =>
    cases h with
    | bean _ hkind _ fields _ hcls hne hlength hvalues =>
      obtain ⟨entries, hentries, hnames, hwritten, hall⟩ := exists_writeFields
        (P := fun p j => ReadsBack classes J p.1.kind p.2 j) hlength fun p hp =>
          ih p.2 (List.of_mem_zip hp).2 (hvalues p hp)
      exact ⟨_, writeField_bean hkind hcls hne hentries,
        readsBack_bean hkind hcls hlength hnames hwritten hall⟩

end MessageClasses

/-! ### Payloads -/

/-- The kinds of payloads. -/
inductive PayloadKind
  | text
  | runnable
  | data
deriving DecidableEq

/-- The kind of a payload. -/
def Value.payloadKind {ν : Type*} : Value ν → PayloadKind
  | .string _ => .text
  | .bean _ _ => .runnable
  | .null | .strings _ | .tree _ => .data

section Payloads

variable {ν : Type*} (classes : MessageClasses ν) (J : ObjectMapper ν)

theorem fits_push2Client {classes : MessageClasses ν} {msg : Value ν}
    (h : classes.Fits .payload msg) : classes.Fits .runnable (push2Client msg) := by
  refine .bean _ (.inl rfl) _ _ _ classes.push2Client (List.cons_ne_nil _ _) rfl fun p hp => ?_
  obtain rfl := List.mem_singleton.mp hp
  exact h

/-- A message that fits has a text, from which it is read back. -/
theorem exists_serialize {classes : MessageClasses ν} {value : Value ν}
    (h : classes.Fits .runnable value) : ∃ text, classes.serialize J value = some text ∧
      classes.deserialize J text = some value := by
  obtain ⟨j, hj, hback⟩ := h.readsBack (J := J)
  have hwrite : classes.writeObject value = some j := hj
  refine ⟨J.print j, by rw [MessageClasses.serialize, hwrite, Option.map_some], ?_⟩
  rw [MessageClasses.deserialize, J.parse_print _ hback.distinct, Option.bind_some]
  exact hback.read _ le_rfl

/-- **The round trip of payloads.** A `Push2Client` whose payload is a string, a message, or untyped
data that is not a map with the key `@`, is written, and read back from its text as a `Push2Client`
with a payload of the same kind and the same text. -/
theorem push2Client_round_trip {msg : Value ν} (h : classes.Fits .payload msg) :
    ∃ text msg', classes.serialize J (push2Client msg) = some text ∧
      classes.deserialize J text = some (push2Client msg') ∧
      msg'.payloadKind = msg.payloadKind ∧
      classes.serialize J (push2Client msg') = some text := by
  obtain ⟨text, htext, hread⟩ := exists_serialize J (fits_push2Client h)
  exact ⟨text, msg, htext, hread, rfl, htext⟩

end Payloads

/-- Jackson for integers: compact text, read back. -/
def compactMapper : ObjectMapper ℤ where
  print := Json.printString
  parse := Json.parseString
  parse_print j _ := Json.parseString_printString j

/-- A `Publish` as the payload, with a `Push2Client` around a tree and an empty list in it. -/
theorem push2Client_round_trip_publish :
    let classes := packageClasses ℤ
    let position : Json ℤ := .obj [("x", .num 1), ("y", .num 123), ("z", .num (-1))]
    let tree : Json ℤ := .obj [("position", position), ("list", .arr [])]
    let msg : Value ℤ := .bean "gwems.Publish" [.string "#mom", push2Client (.tree tree)]
    ∃ text msg', classes.serialize compactMapper (push2Client msg) = some text ∧
      classes.deserialize compactMapper text = some (push2Client msg') ∧
      msg'.payloadKind = msg.payloadKind ∧
      classes.serialize compactMapper (push2Client msg') = some text := by
  intro classes position tree msg
  have htree : MessageClasses.IsUntyped tree := by
    refine ⟨fun s h => ?_, fun h => ?_, ?_⟩
    · exact absurd h (by simp [tree])
    · exact absurd h (by simp [tree])
    · simp [tree, position, Json.Distinct, Json.DistinctEntries, Json.DistinctItems]
  have hmsg : classes.Fits .payload msg := by
    refine .bean _ (.inr rfl) _ _ _ rfl (List.cons_ne_nil _ _) rfl fun p hp => ?_
    rcases List.mem_cons.mp hp with rfl | hp
    · exact .string _
    · obtain rfl := List.mem_singleton.mp hp
      exact fits_push2Client (.tree _ htree rfl)
  exact push2Client_round_trip classes compactMapper hmsg

/-- An untyped map with the key `@` comes back as the message it names. -/
theorem at_key_becomes_runnable :
    let classes := packageClasses ℤ
    let msg : Value ℤ := .tree (.obj [("@", .str "gwems.Subscribe"), ("channel", .str "#mom")])
    ¬ ∃ text msg', classes.serialize compactMapper (push2Client msg) = some text ∧
      classes.deserialize compactMapper text = some (push2Client msg') ∧
      msg'.payloadKind = msg.payloadKind ∧
      classes.serialize compactMapper (push2Client msg') = some text := by
  intro classes msg
  rintro ⟨text, msg', htext, hread, hkind, -⟩
  -- the text is that of the payload `new Subscribe("#mom")`, which fits
  let subscribe : Value ℤ := .bean "gwems.Subscribe" [.string "#mom"]
  have hfits : classes.Fits .payload subscribe :=
    .bean _ (.inr rfl) _ _ _ rfl (List.cons_ne_nil _ _) rfl fun p hp => by
      obtain rfl := List.mem_singleton.mp hp
      exact .string _
  have hsame : classes.serialize compactMapper (push2Client msg) =
      classes.serialize compactMapper (push2Client subscribe) := rfl
  obtain ⟨text', htext', hback⟩ := exists_serialize compactMapper (fits_push2Client hfits)
  rw [← hsame, htext] at htext'
  obtain rfl := Option.some.inj htext'
  rw [hback] at hread
  simp only [push2Client, Option.some.injEq, Value.bean.injEq, List.cons.injEq, and_true,
    true_and] at hread
  rw [← hread] at hkind
  cases hkind

-- a message without fields
example : (packageClasses ℤ).serialize compactMapper (push2Client (.bean "gwems.Ping" [])) = none :=
  rfl

end Gwems
